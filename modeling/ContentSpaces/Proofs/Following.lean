import ContentSpaces.Proofs.Replay
import ContentSpaces.Proofs.Synchronisation

/-!
# What the cursor says of the content

A call moves the cursor and the content together. Whatever is meant by content that is right for an
offset, it is enough to see that a snapshot brings it about and that changes and the care for
containers keep it.
-/

namespace ContentSpaces.Sync

variable {cfg : Config} {remote : Remote} {consumer : RemoteConsumer}
  {right : Nat → Content → Prop} {w w' : World} {a a' : Advance} {offset upper : Nat}

/-- What is right for an offset is brought about by a call from a cursor at `start`. -/
structure Upheld (cfg : Config) (remote : Remote) (start : Nat) (right : Nat → Content → Prop) :
    Prop where
  loaded : ∀ {consumer url files c}, start = 0 → remote.consumer = .ok consumer →
    consumer.snapshotLink? = some url → Snapshot.Served remote url files →
    Snapshot.catalog? cfg.space files = some (c.catalog cfg.space) →
    right consumer.lastSnapshotOffset c
  applied : ∀ {consumer lower changes effects c c'}, remote.consumer = .ok consumer →
    (remote.changes lower consumer.lastOffset).changes = .ok changes → right lower c →
    (c.catalog cfg.space).applyAll cfg.space (Cycle.inOrder changes) =
      some (effects, c'.catalog cfg.space) →
    right (Cycle.lastOffset lower changes) c'
  upkept : ∀ {n c c'}, c.Filed → right n c → Content.Upkeeps c c' → right n c'

/-- The cursor stands at an offset for which the content is right. -/
structure Stands (cfg : Config) (right : Nat → Content → Prop) (offset : Nat) (w : World) :
    Prop where
  filed : w.content.Filed
  up : w.cursors.Up
  owned : w.cursors.Owned cfg.owner
  reached : (w.cursors.current cfg.owner).localOffset = offset
  right : right offset w.content

inductive Ended (cfg : Config) (right : Nat → Content → Prop) (w w' : World) : Prop
  | idle (hcontent : w'.content = w.content)
      (hcursors : w'.cursors.cursors = w.cursors.cursors) (hup : w'.cursors.Up)
  | restarted (hfiled : w'.content.Filed) (hup : w'.cursors.Up) (hcursor :
      w'.cursors.cursors.get? cfg.owner = some (.fresh cfg.owner.context cfg.owner.name))
  | stands {offset : Nat} (h : Stands cfg right offset w')

/-- Before a call nothing need be right, unless the call goes on from the cursor. -/
structure Outset (cfg : Config) (remote : Remote) (right : Nat → Content → Prop) (w : World) :
    Prop where
  filed : w.content.Filed
  up : w.cursors.Up
  owned : w.cursors.Owned cfg.owner
  upheld : Upheld cfg remote (w.cursors.current cfg.owner).localOffset right
  resumed : ∀ consumer, remote.consumer = .ok consumer →
    (if (w.cursors.current cfg.owner).localOffset = 0 then consumer.snapshotLink? else none) = none →
    right (w.cursors.current cfg.owner).localOffset w.content

theorem Outset.started (hw : Outset cfg remote right w) (hconsumer : remote.consumer = .ok consumer)
    (h : Started cfg remote consumer (w.cursors.current cfg.owner).localOffset w.read a w') :
    Stands cfg right a.offset w' := by
  cases h with
  | resumed h => exact ⟨hw.filed, hw.up, hw.owned, rfl, hw.resumed consumer hconsumer h⟩
  | loaded hzero hurl hserved h =>
    have howner := hw.owned.owner_current
    have hput := congrArg CursorStore.cursors h.cursors
    refine ⟨h.edits.filed hw.filed, ?_, CursorStore.owned_of_put hput howner, ?_,
      hw.upheld.loaded hzero hconsumer hurl hserved h.catalog⟩
    · rw [h.cursors]
      exact hw.up
    · rw [CursorStore.current_of_put hput howner]

/-- A cursor that has been reset stands at the start. -/
theorem Ended.of_reset {s : CursorStore} (hfiled : w'.content.Filed) (hs : s.Up)
    (h : w'.cursors = s.afterReset cfg.owner) : Ended cfg right w w' := by
  have hput : w'.cursors.cursors = s.cursors.put (.fresh cfg.owner.context cfg.owner.name) :=
    (congrArg CursorStore.cursors h).trans hs.cursors_afterReset
  exact .restarted hfiled (h ▸ hs) (CursorStore.get?_of_put hput rfl)

theorem Outset.startFailed (hw : Outset cfg remote right w)
    (hconsumer : remote.consumer = .ok consumer)
    (h : StartFailed cfg remote consumer (w.cursors.current cfg.owner).localOffset w.read w') :
    Ended cfg right w w' := by
  cases h with
  | reset h =>
    refine .of_reset (h.edits.filed hw.filed) ?_ rfl
    obtain hsame | hrefused := h.cursors
    · rw [hsame]
      exact hw.up
    · exact absurd hrefused (CursorStore.Up.not_refused hw.up)
  | unread h => exact .stands (hw.started hconsumer h)

theorem Stands.followed {start : Nat} (hw : Stands cfg right a.offset w)
    (hupheld : Upheld cfg remote start right) (hconsumer : remote.consumer = .ok consumer)
    (h : Followed cfg remote consumer.lastOffset a w a' w') : Stands cfg right a'.offset w' := by
  cases h with
  | current _ => exact hw
  | updated _ hchanges h =>
    obtain ⟨effects, happlied, -, -⟩ := h.applied
    have howner := hw.owned.owner_current
    have hput := congrArg CursorStore.cursors h.cursors
    refine ⟨happlied.edits.filed hw.filed, ?_, CursorStore.owned_of_put hput howner, ?_, ?_⟩
    · rw [h.cursors]
      exact hw.up
    · rw [CursorStore.current_of_put hput howner]
    · rw [h.committed]
      exact hupheld.applied hconsumer hchanges hw.right (happlied.catalog hw.filed)

theorem Stands.cycleFailed {before : World} (hw : Stands cfg right offset w)
    (h : Cycle.Failed cfg w w') : Ended cfg right before w' := by
  have hfiled := h.edits.filed hw.filed
  obtain ⟨hcontent, hcursors⟩ | ⟨s, hs, houtage, hreset⟩ := h.cursors
  · exact .stands ⟨hfiled, hcursors ▸ hw.up, hcursors ▸ hw.owned, hcursors ▸ hw.reached,
      hcontent ▸ hw.right⟩
  · refine .of_reset hfiled (s := s) (fun n request => ?_) hreset
    rw [houtage]
    exact hw.up n request

theorem Stands.upkeeps {start : Nat} (hw : Stands cfg right offset w)
    (hupheld : Upheld cfg remote start right) (hcontent : Content.Upkeeps w.content w'.content)
    (hcursors : w'.cursors = w.cursors) : Stands cfg right offset w' :=
  ⟨Content.Upkeeps.filed hcontent hw.filed, hcursors ▸ hw.up, hcursors ▸ hw.owned,
    hcursors ▸ hw.reached, hupheld.upkept hw.filed hw.right hcontent⟩

theorem Stands.aftercare {start : Nat} (hw : Stands cfg right offset w)
    (hupheld : Upheld cfg remote start right) (h : Aftercare cfg a w w') :
    Stands cfg right offset w' := by
  cases h with
  | none _ => exact hw
  | done _ hinitialized _ _ hupkeeps => exact hw.upkeeps hupheld (hinitialized.trans hupkeeps) rfl

theorem Stands.record (hw : Stands cfg right offset w) (remoteOffset : Nat) :
    Stands cfg right offset (w.record cfg.owner remoteOffset) := by
  have howner := hw.owned.owner_current
  have hput : (w.record cfg.owner remoteOffset).cursors.cursors =
      w.cursors.cursors.put { w.cursors.current cfg.owner with remoteOffset := remoteOffset } := rfl
  refine ⟨hw.filed, hw.up, CursorStore.owned_of_put hput howner, ?_, hw.right⟩
  rw [CursorStore.current_of_put hput howner]
  exact hw.reached

theorem Outset.advanced (hw : Outset cfg remote right w) (h : Advanced cfg remote consumer w a w') :
    Stands cfg right a.offset w' := by
  obtain ⟨hconsumer, started, mid, hstarted, hfollowed⟩ := h
  exact (hw.started hconsumer hstarted).followed hw.upheld hconsumer hfollowed

/-- A call leaves a cursor with the content that is right for it, whether it returns or fails,
unless it has done nothing or starts over. -/
theorem Outset.call {m m' : Replica} (hm : Outset cfg remote right m.world)
    (h : Call cfg remote m m') : Ended cfg right m.world m'.world := by
  obtain ⟨outcome, hcompleted⟩ | haborted := h.cases hm.filed
  · obtain ⟨consumer, mid, settled, hadvanced, haftercare, hrecorded⟩ := hcompleted
    rw [hrecorded]
    exact .stands (((hm.advanced hadvanced).aftercare hm.upheld haftercare).record _)
  · cases haborted with
    | early hcontent hcursors houtage hregistry =>
      exact .idle hcontent hcursors fun n request => houtage ▸ hm.up n request
    | start hconsumer h => exact hm.startFailed hconsumer h
    | follow hconsumer hstarted h => exact (hm.started hconsumer hstarted).cycleFailed h
    | settle hadvanced h =>
      exact .stands ((hm.advanced hadvanced).upkeeps hm.upheld h.content h.cursors)
    | record hadvanced haftercare hcontent hregistry h =>
      have hsettled := (hm.advanced hadvanced).aftercare hm.upheld haftercare
      exact absurd h (CursorStore.Up.not_refused hsettled.up)

end ContentSpaces.Sync
