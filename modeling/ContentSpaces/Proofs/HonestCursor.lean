import ContentSpaces.Proofs.Following

/-!
# The cursor is honest

A replica follows one log whose remote always offers a snapshot. Whatever fails on the way, a cursor
above zero names the offset at which the log has led to the catalog of the space.
-/

namespace ContentSpaces.Sync

/-- A remote that serves one log. It answers or fails as it likes, but it always offers a snapshot,
serves the changes of a range in some order, and a snapshot that loads holds the catalog at its
offset. -/
structure Serves (log : List Change) (space : Space) (remote : Remote) : Prop where
  link : ∀ consumer, remote.consumer = .ok consumer → consumer.snapshotLink? ≠ none
  changes : ∀ lower upper changes, (remote.changes lower upper).changes = .ok changes →
    changes.Perm (Feed.Log.range log lower upper)
  snapshot : ∀ consumer url files cat, remote.consumer = .ok consumer →
    consumer.snapshotLink? = some url → Snapshot.Served remote url files →
    Snapshot.catalog? space files = some cat →
    Cycle.replay? space log consumer.lastSnapshotOffset = some cat

variable {cfg : Config} {remote : Remote} {log : List Change} {w w' : World}

/-- The catalog is the one that the log leads to at this offset. -/
abbrev Replayed (cfg : Config) (log : List Change) (offset : Nat) (c : Content) : Prop :=
  Cycle.replay? cfg.space log offset = some (c.catalog cfg.space)

/-- What holds between calls: a cursor above zero is right. -/
structure Honest (cfg : Config) (log : List Change) (w : World) : Prop where
  filed : w.content.Filed
  up : w.cursors.Up
  owned : w.cursors.Owned cfg.owner
  replayed : 0 < (w.cursors.current cfg.owner).localOffset →
    Replayed cfg log (w.cursors.current cfg.owner).localOffset w.content

theorem Serves.upheld (hserves : Serves log cfg.space remote) (hspace : cfg.space = .standard)
    (hlog : (log.map Change.offset).Nodup) (start : Nat) :
    Upheld cfg remote start (Replayed cfg log) where
  loaded _ hconsumer hurl hserved hcat := hserves.snapshot _ _ _ _ hconsumer hurl hserved hcat
  applied _ hchanges hreplayed happly :=
    Cycle.replay?_lastOffset hlog (hserves.changes _ _ _ hchanges) hreplayed happly
  upkept hfiled hreplayed hupkeeps :=
    hreplayed.trans (congrArg some (Content.Upkeeps.catalog_eq hupkeeps hfiled
      (by rw [hspace]; decide)).symm)

theorem Honest.outset (hw : Honest cfg log w) (hspace : cfg.space = .standard)
    (hlog : (log.map Change.offset).Nodup) (hserves : Serves log cfg.space remote) :
    Outset cfg remote (Replayed cfg log) w := by
  refine ⟨hw.filed, hw.up, hw.owned, hserves.upheld hspace hlog _, fun consumer hconsumer h => ?_⟩
  refine hw.replayed (Nat.pos_of_ne_zero fun hzero => ?_)
  rw [if_pos hzero] at h
  exact hserves.link consumer hconsumer h

theorem Honest.congr (hw : Honest cfg log w) (hfiled : w'.content.Filed)
    (hcatalog : w'.content.catalog cfg.space = w.content.catalog cfg.space)
    (hcursor : w'.cursors.cursors.get? cfg.owner = w.cursors.cursors.get? cfg.owner)
    (hup : w'.cursors.Up) : Honest cfg log w' := by
  have hcurrent : w'.cursors.current cfg.owner = w.cursors.current cfg.owner := by
    rw [CursorStore.current, CursorStore.current, hcursor]
  refine ⟨hfiled, hup, fun cursor h => hw.owned cursor (hcursor ▸ h), ?_⟩
  rw [hcurrent, Replayed, hcatalog]
  exact hw.replayed

theorem Honest.ended (hw : Honest cfg log w) (h : Ended cfg (Replayed cfg log) w w') :
    Honest cfg log w' := by
  cases h with
  | idle hcontent hcursors hup =>
    exact hw.congr (hcontent ▸ hw.filed) (congrArg (Content.catalog · cfg.space) hcontent)
      (congrArg (Table.get? · cfg.owner) hcursors) hup
  | restarted hfiled hup hcursor =>
    have hcurrent : w'.cursors.current cfg.owner = .fresh cfg.owner.context cfg.owner.name := by
      rw [CursorStore.current, hcursor]
      rfl
    refine ⟨hfiled, hup, fun cursor h => ?_, fun hpositive => ?_⟩
    · cases h.symm.trans hcursor
      rfl
    · rw [hcurrent] at hpositive
      cases hpositive
  | stands h => exact ⟨h.filed, h.up, h.owned, fun _ => h.reached ▸ h.right⟩

/-- A call keeps the cursor honest, whether it returns or fails. -/
theorem Honest.call {m m' : Replica} (hm : Honest cfg log m.world) (hspace : cfg.space = .standard)
    (hlog : (log.map Change.offset).Nodup) (hserves : Serves log cfg.space remote)
    (h : Call cfg remote m m') : Honest cfg log m'.world :=
  hm.ended ((hm.outset hspace hlog hserves).call h)

/-- What others may do: they write neither the space nor the cursor of the consumer. -/
structure Elsewhere (cfg : Config) (m m' : Replica) : Prop where
  filed : m.store.content.Filed → m'.store.content.Filed
  catalog : m'.store.content.catalog cfg.space = m.store.content.catalog cfg.space
  cursor : m'.cursors.cursors.get? cfg.owner = m.cursors.cursors.get? cfg.owner
  up : m.cursors.Up → m'.cursors.Up

/-- Calls with any remotes that serve the log, and what others do between them. -/
inductive Step (cfg : Config) (log : List Change) (m : Replica) : Replica → Prop
  | call {remote : Remote} {m' : Replica} (hserves : Serves log cfg.space remote)
      (h : Call cfg remote m m') : Step cfg log m m'
  | others {m' : Replica} (h : Elsewhere cfg m m') : Step cfg log m m'

abbrev Run (cfg : Config) (log : List Change) : Replica → Replica → Prop :=
  Relation.ReflTransGen (Step cfg log)

/-- Nothing has been followed yet, and every call of the cursor store will be answered. -/
structure Pristine (cfg : Config) (m : Replica) : Prop where
  filed : m.store.content.Filed
  catalog : m.store.content.catalog cfg.space = .empty
  cursor : m.cursors.cursors.get? cfg.owner = none
  up : m.cursors.Up

theorem Pristine.honest {m : Replica} (h : Pristine cfg m) : Honest cfg log m.world := by
  have hnone : m.world.cursors.cursors.get? cfg.owner = none := h.cursor
  refine ⟨h.filed, h.up, fun cursor hcursor => ?_, fun hpositive => ?_⟩
  · cases hnone.symm.trans hcursor
  · rw [CursorStore.current, hnone] at hpositive
    cases hpositive

theorem Honest.run {m m' : Replica} (hm : Honest cfg log m.world) (hspace : cfg.space = .standard)
    (hlog : (log.map Change.offset).Nodup) (h : Run cfg log m m') : Honest cfg log m'.world := by
  induction h with
  | refl => exact hm
  | tail _ hlast ih =>
    cases hlast with
    | call hserves h => exact ih.call hspace hlog hserves h
    | others h => exact ih.congr (h.filed ih.filed) h.catalog h.cursor (h.up ih.up)

/-- After any run, a cursor above zero names the offset at which applying the log in order gives the
documents of the space. -/
theorem replay?_of_run {m m' : Replica} {cursor : Cursor} (hspace : cfg.space = .standard)
    (hlog : (log.map Change.offset).Nodup) (hm : Pristine cfg m) (hrun : Run cfg log m m')
    (hcursor : m'.cursors.cursors.get? cfg.owner = some cursor) (hpositive : 0 < cursor.localOffset) :
    Cycle.replay? .standard log cursor.localOffset =
      some (m'.store.content.catalog .standard) := by
  have hhonest := hm.honest.run hspace hlog hrun
  have hcurrent : m'.world.cursors.current cfg.owner = cursor := by
    rw [CursorStore.current]
    exact congrArg (Option.getD · _) hcursor
  rw [← hspace, ← hcurrent]
  exact hhonest.replayed (hcurrent ▸ hpositive)

section Trial

def emptyArchive : ByteArray :=
  ⟨#[0x50, 0x4b, 5, 6, 0, 0, 0, 0, 0, 0, 0, 0, 0, 0, 0, 0, 0, 0, 0, 0, 0, 0]⟩

def trialLog : List Change := [.creation 2 .rule (.object [("id", .string "r")])]

def trialRemote : Remote where
  consumer := .ok ⟨"consumer", "context", 2, some "u", 1⟩
  changes lower upper := ⟨.ok (Feed.Log.range trialLog lower upper), false⟩
  snapshot _ := .ok ⟨emptyArchive, 0⟩

theorem files_of_emptyArchive {expired : Bool} {files : List Snapshot.SourceFile}
    (h : Snapshot.unpack emptyArchive expired = .ok files) : files = [] := by
  have hempty : (match Snapshot.unpack emptyArchive expired with
      | .ok files => files.isEmpty
      | .error _ => true) = true := by
    cases expired <;> decide +kernel
  rw [h] at hempty
  exact List.isEmpty_iff.mp hempty

theorem serves_trialRemote : Serves trialLog .standard trialRemote where
  link consumer h := by
    cases h
    decide +kernel
  changes lower upper changes h := by
    cases h
    exact .refl _
  snapshot consumer url files cat hconsumer _ hserved hcat := by
    obtain ⟨download, expired, hdownload, hunpack⟩ := hserved
    cases hconsumer
    cases hdownload
    rw [files_of_emptyArchive hunpack, Snapshot.catalog?, Snapshot.recordFiles,
      List.filter_nil, List.mergeSort_nil] at hcat
    cases hcat
    have hnone : Cycle.upTo trialLog 1 = [] := by decide
    rw [Cycle.replay?, hnone, List.mergeSort_nil]
    rfl

theorem trial_returns : ∃ outcome m' cursor,
    synchronize trialConfig trialRemote (.of .empty .empty) = .ok outcome m' ∧
      m'.cursors.cursors.get? trialConfig.owner = some cursor ∧ cursor.localOffset = 2 := by
  have hends : (match synchronize trialConfig trialRemote (.of .empty .empty) with
      | .ok _ m' => (m'.cursors.cursors.get? trialConfig.owner).any (·.localOffset == 2)
      | .error _ _ => false) = true := by
    decide +kernel
  cases h : synchronize trialConfig trialRemote (.of .empty .empty) with
  | error e m' =>
    rw [h] at hends
    cases hends
  | ok outcome m' =>
    rw [h] at hends
    obtain ⟨cursor, hcursor, hoffset⟩ := (Option.any_eq_true ..).mp hends
    exact ⟨outcome, m', cursor, rfl, hcursor, beq_iff_eq.mp hoffset⟩

theorem trial_replayed : ∃ m', Run trialConfig trialLog (.of .empty .empty) m' ∧
    Cycle.replay? .standard trialLog 2 = some (m'.store.content.catalog .standard) := by
  obtain ⟨outcome, m', cursor, h, hcursor, hoffset⟩ := trial_returns
  have hrun : Run trialConfig trialLog (.of .empty .empty) m' :=
    .single (.call serves_trialRemote (.returned h))
  have hpristine : Pristine trialConfig (.of .empty .empty) := ⟨.empty, rfl, rfl, fun _ _ => rfl⟩
  have hreplayed := replay?_of_run rfl (by decide) hpristine hrun hcursor (by rw [hoffset]; decide)
  exact ⟨m', hrun, hoffset ▸ hreplayed⟩

end Trial

end ContentSpaces.Sync
