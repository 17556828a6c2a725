import ContentSpaces.Proofs.Services

/-!
# Synchronising again

After a call that returns, the cursor stands behind the last change of the log, or at the start with
nothing to follow. A second call against the same remote therefore finds an empty batch, or it loads
the snapshot once more; either way it leaves content and cursors as they are.
-/

namespace ContentSpaces.Sync

open Replica

variable {cfg : Config} {remote : Remote} {consumer : RemoteConsumer} {log : List Change}
  {offset upper : Nat} {m m' : Replica} {a a' : Advance}

section First

/-- What makes the next call load the snapshot again, and what it has loaded this time. -/
structure Reloads (cfg : Config) (remote : Remote) (consumer : RemoteConsumer) (url : String)
    (scratch : String → Bool) (files : List Snapshot.SourceFile) (cursor : Cursor) : Prop where
  link : cursor.snapshotLink = url
  offset : consumer.lastSnapshotOffset = 0
  loadable : Snapshot.Loadable cfg remote url scratch files

/-- The first phases have brought the space to an offset. -/
structure Brought (cfg : Config) (remote : Remote) (consumer : RemoteConsumer) (a : Advance)
    (m : Replica) : Prop where
  store : m.store.Up
  cursors : m.cursors.Up
  owned : m.cursors.Owned cfg.owner
  filed : m.store.content.Filed
  offset : (m.cursors.current cfg.owner).localOffset = a.offset
  reload : a.offset = 0 → ∀ url, consumer.snapshotLink? = some url →
    a.snapshot.isSome = true ∧ ∃ files c, Reloads cfg remote consumer url m.scratch files (m.cursors.current cfg.owner) ∧
      m.store.content = Content.replaced c cfg.space (Snapshot.recorded cfg.space files)

theorem brought_of_start (hstore : m.store.Up) (hcursors : m.cursors.Up)
    (howned : m.cursors.Owned cfg.owner) (hfiled : m.store.content.Filed)
    (h : start cfg remote consumer (m.cursors.current cfg.owner).localOffset m = .ok a m') :
    Brought cfg remote consumer a m' ∧ m'.scratch = m.scratch := by
  have hready : Serviced m m := ⟨hstore, hcursors, rfl, rfl⟩
  obtain ⟨hloadable, hserviced⟩ := serviced_start.of_ok hready h
  refine ⟨?_, hserviced.scratch⟩
  cases begun_of_start h with
  | resumed hnone =>
    refine ⟨hstore, hcursors, howned, hfiled, rfl, fun hoffset url hurl => ?_⟩
    have hoffset : (m.cursors.current cfg.owner).localOffset = 0 := hoffset
    rw [if_pos hoffset, hurl] at hnone
    cases hnone
  | @loaded url files tasks report m' hoffset hurl hfiles hcontent hput =>
    have howner : (m.cursors.current cfg.owner).owner = cfg.owner := howned.owner_current
    have hcurrent := CursorStore.current_of_put hput howner
    refine ⟨hserviced.store, hserviced.cursors, CursorStore.owned_of_put hput howner, ?_, ?_, ?_⟩
    · exact hcontent ▸ hfiled.replaced _ _
    · rw [hcurrent]
    · intro hstart url' hurl'
      cases hurl.symm.trans hurl'
      obtain ⟨files', hfiles'⟩ := hloadable url hoffset hurl
      cases hfiles.symm.trans hfiles'.served
      refine ⟨rfl, files, m.store.content, ⟨?_, hstart, hserviced.scratch ▸ hfiles'⟩, hcontent⟩
      rw [hcurrent]

def Exhausted (log : List Change) (offset upper : Nat) (m : Replica) : Prop :=
  offset < upper → Feed.Log.range log offset upper = [] ∧ m.engine.phase.canStart = true

theorem range_lastOffset_eq_nil {changes : List Change} {lower : Nat}
    (h : changes.Perm (Feed.Log.range log lower upper)) :
    Feed.Log.range log (Cycle.lastOffset lower changes) upper = [] := by
  refine List.filter_eq_nil_iff.mpr fun c hc hrange => ?_
  rw [Bool.and_eq_true, decide_eq_true_eq, decide_eq_true_eq] at hrange
  have hlower := Cycle.lower_le_lastOffset h
  have hmem : c ∈ changes := by
    refine h.mem_iff.mpr (List.mem_filter.mpr ⟨hc, ?_⟩)
    rw [Bool.and_eq_true, decide_eq_true_eq, decide_eq_true_eq]
    omega
  have hle := Cycle.offset_le_lastOffset lower hmem
  omega

theorem state_batchCourse_nil (space : Space) (cancelled : Bool) (c : Content) :
    (Cycle.batchCourse space cancelled [] c).state = c := by
  rw [Cycle.batchCourse, Cycle.inOrder, List.mergeSort_nil]
  rfl

theorem brought_of_follow (hm : Brought cfg remote consumer a m)
    (hremote : Cycle.Supplies remote log) (h : follow cfg remote upper a m = .ok a' m') :
    Brought cfg remote consumer a' m' ∧ Exhausted log a'.offset upper m' ∧
      m'.scratch = m.scratch := by
  have hfiled : m'.store.content.Filed :=
    Content.Edits.filed (Followed.edits (ensures_follow upper a |>.of_ok rfl h)) hm.filed
  cases covered_of_follow hm.store hm.cursors hremote h with
  | current hreached => exact ⟨hm, fun hbelow => absurd hbelow hreached, rfl⟩
  | @updated changes report m' hbelow hperm horderly hcommitted hcontent hcursors hup hphase
      hscratch =>
    have hput : m'.cursors.cursors = m.cursors.cursors.put { m.cursors.current cfg.owner with
        localOffset := report.committed } := by
      rw [hcursors]
      rfl
    have howner : (m.cursors.current cfg.owner).owner = cfg.owner := hm.owned.owner_current
    have hcurrent := CursorStore.current_of_put hput howner
    have hcursorsUp : m'.cursors.Up := by
      rw [hcursors]
      exact hm.cursors
    refine ⟨⟨hup, hcursorsUp, CursorStore.owned_of_put hput howner, hfiled, ?_, ?_⟩, ?_, hscratch⟩
    · rw [hcurrent]
    · -- A cycle that ends at the start has had no changes, as those lie above it.
      intro hzero url hurl
      have hzero : report.committed = 0 := hzero
      rw [hcommitted] at hzero
      have hstart : a.offset = 0 := by
        have hle := Cycle.lower_le_lastOffset hperm
        omega
      have hnil : changes = [] := by
        obtain ⟨hnil, -⟩ | ⟨c, hc, hlast⟩ := Cycle.lastOffset_eq_or_mem a.offset changes
        · exact hnil
        · have hbounds := horderly.bounds c hc
          omega
      obtain ⟨hsnapshot, files, c, hreloads, hloaded⟩ := hm.reload hstart url hurl
      refine ⟨hsnapshot, files, c, ⟨?_, hreloads.offset, hscratch ▸ hreloads.loadable⟩, ?_⟩
      · rw [hcurrent]
        exact hreloads.link
      · rw [hcontent, hnil, state_batchCourse_nil, hloaded]
    · intro _
      refine ⟨?_, ?_⟩
      · rw [hcommitted]
        exact range_lastOffset_eq_nil hperm
      · rw [hphase]
        rfl

/-- What a call that returns leaves behind: a cursor with nothing left to follow, and if it stands
at the start below a snapshot, the content that the snapshot leads to. -/
structure UpToDate (cfg : Config) (remote : Remote) (consumer : RemoteConsumer) (log : List Change)
    (cursor : Cursor) (m : Replica) : Prop where
  store : m.store.Up
  cursors : m.cursors.Up
  filed : m.store.content.Filed
  stored : m.cursors.cursors.get? cfg.owner = some cursor
  owner : cursor.owner = cfg.owner
  remoteOffset : cursor.remoteOffset = consumer.lastOffset
  exhausted : Exhausted log cursor.localOffset consumer.lastOffset m
  reload : cursor.localOffset = 0 → ∀ url, consumer.snapshotLink? = some url → ∃ files c,
    Reloads cfg remote consumer url m.scratch files cursor ∧
      (Content.replaced c cfg.space (Snapshot.recorded cfg.space files)).Tends m.store.content

theorem upToDate_of_synchronize {outcome : Outcome} (hstore : m.store.Up) (hcursors : m.cursors.Up)
    (howned : m.cursors.Owned cfg.owner) (hfiled : m.store.content.Filed)
    (hremote : Cycle.Supplies remote log) (h : synchronize cfg remote m = .ok outcome m') :
    ∃ consumer cursor, remote.consumer = .ok consumer ∧
      UpToDate cfg remote consumer log cursor m' := by
  obtain ⟨consumer, started, m₁, a, m₂, aftermath, m₃, hconsumer, hstarted, hfollowed, hsettled,
    hrecorded, -⟩ := (synchronize_eq_ok_iff hcursors).mp h
  have howned' : (called m).cursors.Owned cfg.owner := howned
  obtain ⟨hstart, -⟩ := brought_of_start (m := called m) hstore hcursors howned' hfiled hstarted
  obtain ⟨hbrought, hexhausted, -⟩ := brought_of_follow hstart hremote hfollowed
  have hserviced : Serviced m₂ m₃ :=
    (serviced_settle a).of_ok ⟨hbrought.store, hbrought.cursors, rfl, rfl⟩ hsettled
  obtain ⟨hsame, hcontent⟩ := (ensures_settle_tends a hbrought.filed).of_ok rfl hsettled
  have hfiled' : m₃.store.content.Filed := by
    have haftercare := (ensures_settle a hbrought.filed).of_ok rfl hsettled
    exact Content.Upkeeps.filed haftercare.upkeeps hbrought.filed
  rw [onCursors_revise _ _ hserviced.cursors] at hrecorded
  cases hrecorded
  have hsame : m₃.cursors = m₂.cursors := hsame
  have howner : Cursor.owner { m₃.cursors.current cfg.owner with
      remoteOffset := consumer.lastOffset } = cfg.owner := by
    rw [hsame]
    exact hbrought.owned.owner_current
  refine ⟨consumer, _, hconsumer, hserviced.store, hserviced.cursors, hfiled',
    CursorStore.get?_of_put (s := m₃.cursors) rfl howner, howner, rfl, ?_, ?_⟩
  · intro hbelow
    have hoffset : (m₃.cursors.current cfg.owner).localOffset = a.offset := by
      rw [hsame, hbrought.offset]
    have hbelow : (m₃.cursors.current cfg.owner).localOffset < consumer.lastOffset := hbelow
    obtain ⟨hnil, hphase⟩ := hexhausted (hoffset ▸ hbelow)
    refine ⟨hoffset ▸ hnil, ?_⟩
    show m₃.engine.phase.canStart = true
    rw [hserviced.engine, hphase]
  · intro hzero url hurl
    have hzero : (m₃.cursors.current cfg.owner).localOffset = 0 := hzero
    rw [hsame, hbrought.offset] at hzero
    obtain ⟨hsnapshot, files, c, hreloads, hloaded⟩ := hbrought.reload hzero url hurl
    have hchanges : a.hasChanges = true := by
      rw [Advance.hasChanges, hsnapshot, Bool.true_or]
    rw [if_pos hchanges] at hcontent
    refine ⟨files, c, ⟨?_, hreloads.offset, ?_⟩, hloaded ▸ hcontent⟩
    · show (m₃.cursors.current cfg.owner).snapshotLink = url
      rw [hsame, hreloads.link]
    · show Snapshot.Loadable cfg remote url m₃.scratch files
      rw [hserviced.scratch]
      exact hreloads.loadable

end First

section Second

variable {cursor : Cursor}

/-- Since a call that returned, nothing has happened but that the snapshot was loaded again. -/
structure Retraced (cfg : Config) (cursor : Cursor) (m : Replica) (a : Advance) (m' : Replica) :
    Prop where
  store : m'.store.Up
  cursors : m'.cursors.Up
  filed : m'.store.content.Filed
  offset : a.offset = cursor.localOffset
  put : ∃ remoteOffset, m'.cursors.cursors =
    m.cursors.cursors.put { cursor with remoteOffset := remoteOffset }
  content : a.hasChanges = false ∧ m'.store.content = m.store.content ∨
    a.hasChanges = true ∧ ∃ c rs, (∀ r ∈ rs, r.space = cfg.space) ∧
      (Content.replaced c cfg.space rs).Tends m.store.content ∧
      m'.store.content = m.store.content.replaced cfg.space rs

/-- Revising the cursor again changes no more than the offset of the remote. -/
theorem put_revised {s : CursorStore} {cs : Cursors} {remoteOffset remoteOffset' : Nat}
    {change : Cursor → Cursor} (howner : cursor.owner = cfg.owner)
    (hput : s.cursors = cs.put { cursor with remoteOffset := remoteOffset })
    (hchange : change { cursor with remoteOffset := remoteOffset } =
      { cursor with remoteOffset := remoteOffset' }) :
    (s.revised cfg.owner change).cursors = cs.put { cursor with remoteOffset := remoteOffset' } := by
  have hcurrent : s.current cfg.owner = { cursor with remoteOffset := remoteOffset } := by
    have hown : Cursor.owner { cursor with remoteOffset := remoteOffset } = cfg.owner := howner
    rw [CursorStore.current, hput, ← hown, Cursors.get?_put]
    rfl
  show s.cursors.put (change (s.current cfg.owner)) = _
  rw [hcurrent, hchange, hput]
  exact CursorStore.put_put rfl

theorem UpToDate.current (h : UpToDate cfg remote consumer log cursor m) :
    m.cursors.current cfg.owner = cursor := by
  rw [CursorStore.current, h.stored]
  rfl

theorem UpToDate.put_self (h : UpToDate cfg remote consumer log cursor m) :
    m.cursors.cursors.put cursor = m.cursors.cursors :=
  CursorStore.put_eq_self (h.owner ▸ h.stored)

theorem UpToDate.start_again (h : UpToDate cfg remote consumer log cursor m) :
    ∃ a m', start cfg remote consumer cursor.localOffset (called m) = .ok a m' ∧
      Retraced cfg cursor m a m' ∧ a.update = none ∧ m'.engine = m.engine := by
  have hready : Serviced (called m) (called m) := ⟨h.store, h.cursors, rfl, rfl⟩
  cases hstart : start cfg remote consumer cursor.localOffset (called m) with
  | error e m' =>
    obtain ⟨hoffset, url, hurl, hnot⟩ := serviced_start.of_error hready hstart
    obtain ⟨files, c, hreloads, -⟩ := h.reload hoffset url hurl
    exact absurd hreloads.loadable (hnot files)
  | ok a m' =>
    obtain ⟨-, hserviced⟩ := serviced_start.of_ok hready hstart
    refine ⟨a, m', rfl, ?_⟩
    cases begun_of_start hstart with
    | resumed hnone =>
      refine ⟨⟨h.store, h.cursors, h.filed, rfl, ⟨cursor.remoteOffset, ?_⟩, .inl ⟨rfl, rfl⟩⟩, rfl,
        rfl⟩
      exact h.put_self.symm
    | @loaded url files tasks report m' hoffset hurl hfiles hcontent hput =>
      obtain ⟨files', c, hreloads, htends⟩ := h.reload hoffset url hurl
      cases hfiles.symm.trans hreloads.loadable.served
      have hcurrent : (called m).cursors.current cfg.owner = cursor := h.current
      rw [hcurrent] at hput
      refine ⟨⟨hserviced.store, hserviced.cursors, hcontent ▸ h.filed.replaced _ _,
        hreloads.offset.trans hoffset.symm, ⟨0, ?_⟩, .inr ⟨rfl, c, _, fun r hr => ?_, htends,
        hcontent⟩⟩, rfl, hserviced.engine⟩
      · rw [hput, hreloads.offset, ← hreloads.link]
        have hsame : ({ cursor with localOffset := 0, remoteOffset := 0 } : Cursor) =
            { cursor with remoteOffset := 0 } := by
          rw [← hoffset]
        exact congrArg _ hsame
      · exact Snapshot.space_eq_of_mem_recorded hr

theorem UpToDate.follow_again (h : UpToDate cfg remote consumer log cursor m)
    (hremote : Cycle.Supplies remote log) (hm : Retraced cfg cursor m a m')
    (hupdate : a.update = none) (hengine : m'.engine = m.engine) :
    ∃ a' m'', follow cfg remote consumer.lastOffset a m' = .ok a' m'' ∧
      Retraced cfg cursor m a' m'' := by
  unfold follow
  split
  · rename_i hbelow
    obtain ⟨hnil, hphase⟩ := h.exhausted (hm.offset ▸ hbelow)
    obtain ⟨changes, hbatch, hperm⟩ := hremote a.offset consumer.lastOffset
    rw [hm.offset, hnil] at hperm
    obtain rfl := hperm.eq_nil
    obtain ⟨m'', hrun, hstore, hcursors⟩ :=
      Cycle.update_of_nil cfg (hengine ▸ hphase) hm.cursors hbatch
    refine ⟨_, m'', bind_eq_ok_iff.mpr ⟨_, _, hrun, rfl⟩, ?_⟩
    obtain ⟨remoteOffset, hput⟩ := hm.put
    refine ⟨hstore ▸ hm.store, ?_, hstore ▸ hm.filed, hm.offset, ⟨remoteOffset, ?_⟩, ?_⟩
    · rw [hcursors]
      exact hm.cursors
    · rw [hcursors]
      refine put_revised h.owner hput ?_
      rw [hm.offset]
    · have hsame : Advance.hasChanges ⟨a.offset, a.tasks ++ [], a.snapshot,
          some ⟨a.offset, consumer.lastOffset, a.offset, 0, 0, []⟩⟩ = a.hasChanges := by
        rw [Advance.hasChanges, Advance.hasChanges, hupdate]
        rfl
      rw [hsame, hstore]
      exact hm.content
  · exact ⟨a, m', rfl, hm⟩

theorem Retraced.settle_again (hm : Retraced cfg cursor m a m') :
    ∃ aftermath m'', settle cfg a m' = .ok aftermath m'' ∧
      m''.store.content = m.store.content ∧ m''.cursors = m'.cursors := by
  have hready : Serviced m' m' := ⟨hm.store, hm.cursors, rfl, rfl⟩
  cases hsettled : settle cfg a m' with
  | error e m'' => exact ((serviced_settle a).of_error hready hsettled).elim
  | ok aftermath m'' =>
    obtain ⟨hcursors, hcontent⟩ := (ensures_settle_tends a hm.filed).of_ok rfl hsettled
    refine ⟨aftermath, m'', rfl, ?_, hcursors⟩
    have hworld : m'.world.content = m'.store.content := rfl
    rw [hworld] at hcontent
    obtain ⟨hidle, hsame⟩ | ⟨hchanges, c, rs, hrs, htends, hreplaced⟩ := hm.content
    · rw [hidle] at hcontent
      exact hcontent.trans hsame
    · rw [if_pos hchanges, hreplaced] at hcontent
      exact htends.again hrs hcontent

/-- A call that comes upon what an earlier one has left returns and changes nothing. -/
theorem UpToDate.again (h : UpToDate cfg remote consumer log cursor m)
    (hconsumer : remote.consumer = .ok consumer) (hremote : Cycle.Supplies remote log) :
    ∃ outcome m', synchronize cfg remote m = .ok outcome m' ∧
      m'.store.content = m.store.content ∧ m'.cursors.cursors = m.cursors.cursors := by
  obtain ⟨started, m₁, hstarted, hm₁, hupdate, hengine⟩ := h.start_again
  obtain ⟨a, m₂, hfollowed, hm₂⟩ := h.follow_again hremote hm₁ hupdate hengine
  obtain ⟨aftermath, m₃, hsettled, hcontent, hcursors⟩ := hm₂.settle_again
  have hrecorded := onCursors_revise cfg.owner
    (fun c => { c with remoteOffset := consumer.lastOffset }) (hcursors ▸ hm₂.cursors)
  refine ⟨_, _, (synchronize_eq_ok_iff h.cursors).mpr ⟨consumer, started, m₁, a, m₂, aftermath, m₃,
    hconsumer, h.current ▸ hstarted, hfollowed, hsettled, hrecorded, rfl⟩, hcontent, ?_⟩
  obtain ⟨remoteOffset, hput⟩ := hm₂.put
  rw [← hcursors] at hput
  have hfinal : (m₃.cursors.revised cfg.owner fun c =>
      { c with remoteOffset := consumer.lastOffset }).cursors =
        m.cursors.cursors.put { cursor with remoteOffset := consumer.lastOffset } :=
    put_revised h.owner hput rfl
  have hself : ({ cursor with remoteOffset := consumer.lastOffset } : Cursor) = cursor := by
    rw [← h.remoteOffset]
  rw [hself, h.put_self] at hfinal
  exact hfinal

/-- A second call against the same remote returns as well, and leaves all content and all cursors as
the first one has left them. -/
theorem synchronize_again {outcome : Outcome} (hstore : m.store.Up) (hcursors : m.cursors.Up)
    (howned : m.cursors.Owned cfg.owner) (hfiled : m.store.content.Filed)
    (hremote : Cycle.Supplies remote log) (h : synchronize cfg remote m = .ok outcome m') :
    ∃ outcome' m'', synchronize cfg remote m' = .ok outcome' m'' ∧
      m''.store.content = m'.store.content ∧ m''.cursors.cursors = m'.cursors.cursors := by
  obtain ⟨consumer, cursor, hconsumer, huptodate⟩ :=
    upToDate_of_synchronize hstore hcursors howned hfiled hremote h
  exact huptodate.again hconsumer hremote

section Trial

def standing : Remote where
  consumer := .ok ⟨"consumer", "context", 2, some "u", 0⟩
  changes _ _ := ⟨.ok [], false⟩
  snapshot _ := .ok ⟨trialArchive, 0⟩

theorem supplies_standing : Cycle.Supplies standing [] := fun _ _ => ⟨[], rfl, .refl _⟩

/-- The first call leaves the cursor at the start, so the second loads the snapshot again. -/
theorem standing_again : ∃ outcome m' outcome' m'',
    synchronize trialConfig standing (.of .empty .empty) = .ok outcome m' ∧
      (m'.cursors.current trialConfig.owner).localOffset = 0 ∧
      (m'.store.content.get? ⟨.rule, .standard, "r"⟩).isSome ∧
      synchronize trialConfig standing m' = .ok outcome' m'' ∧
      m''.store.content = m'.store.content ∧ m''.cursors.cursors = m'.cursors.cursors := by
  have hends : returned (fun _ m' => (m'.cursors.current trialConfig.owner).localOffset == 0 &&
      (m'.store.content.get? ⟨.rule, .standard, "r"⟩).isSome)
      (synchronize trialConfig standing (.of .empty .empty)) = true := by
    decide +kernel
  obtain ⟨outcome, m', h, hstored⟩ := eq_ok_of_returned hends
  rw [Bool.and_eq_true, beq_iff_eq] at hstored
  obtain ⟨outcome', m'', h', hcontent, hcursors⟩ := synchronize_again ready_fresh.store
    ready_fresh.cursors ready_fresh.owned .empty supplies_standing h
  exact ⟨outcome, m', outcome', m'', h, hstored.1, hstored.2, h', hcontent, hcursors⟩

end Trial

end Second

end ContentSpaces.Sync
