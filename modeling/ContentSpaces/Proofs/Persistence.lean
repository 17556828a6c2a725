import ContentSpaces.Command.Run
import ContentSpaces.Proofs.Files
import ContentSpaces.Proofs.HonestCursor
import ContentSpaces.Proofs.Isolation
import Mathlib.Logic.Function.Basic

/-!
# What a stopped run leaves on disk

A run writes the cursors before the content. If it stops between the two writes, the cursor on disk
may be ahead of the content, and the next run goes on from there. At no other point of the save does
that happen.
-/

namespace ContentSpaces

theorem Content.filed_of_ofText? {text : String} {c : Content} (h : ofText? text = some c) :
    c.Filed := by
  obtain ⟨rs, -, rfl⟩ := Option.map_eq_some_iff.mp h
  exact Filed.empty.fileAll rs

namespace Cursors

/-- Every cursor is filed under its own owner. -/
def Owned (cs : Cursors) : Prop := ∀ owner cursor, cs.get? owner = some cursor → cursor.owner = owner

theorem Owned.empty : Owned .empty := fun _ _ h => nomatch h

theorem Owned.put {cs : Cursors} (h : cs.Owned) (cursor : Cursor) : (cs.put cursor).Owned := by
  intro owner cursor' hcursor'
  rw [Cursors.put, Table.get?_insert] at hcursor'
  split at hcursor'
  · rename_i howner
    cases hcursor'
    exact howner.symm
  · exact h owner cursor' hcursor'

theorem Owned.putAll {cs : Cursors} (h : cs.Owned) (added : List Cursor) :
    (cs.putAll added).Owned := by
  induction added generalizing cs with
  | nil => exact h
  | cons cursor added ih => exact ih (h.put cursor)

end Cursors

namespace DataDirectory

/-- What stands on disk for each file of the directory. -/
abbrev Disk := Item → Option Node

variable {disk : Disk} {s kept : State} {cfg : Config} {remote : Remote} {owner : Consumer}

theorem filed_of_loadContent? {node : Option Node} {c : Content} (h : loadContent? node = some c) :
    c.Filed := by
  cases node with
  | none =>
    cases h
    exact .empty
  | some node =>
    obtain ⟨text, -, h⟩ := Option.bind_eq_some_iff.mp h
    exact Content.filed_of_ofText? h

theorem owned_of_loadCursors? {node : Option Node} {cs : Cursors} (h : loadCursors? node = some cs) :
    cs.Owned := by
  cases node with
  | none =>
    cases h
    exact .empty
  | some node =>
    obtain ⟨text, -, h⟩ := Option.bind_eq_some_iff.mp h
    obtain ⟨⟨n, read⟩, himport, h⟩ := Option.bind_eq_some_iff.mp h
    obtain ⟨added, -, hadded⟩ := Option.bind_eq_some_iff.mp himport
    cases hadded
    cases h
    exact Cursors.Owned.empty.putAll added

theorem load?_eq_some_iff : load? disk = some s ↔
    loadContent? (disk .content) = some s.content ∧
      loadCursors? (disk .cursors) = some s.cursors := by
  unfold load?
  obtain ⟨content, cursors⟩ := s
  cases loadContent? (disk .content) <;> cases loadCursors? (disk .cursors) <;> simp

/-! ## Stopping -/

def State.offset (s : State) (owner : Consumer) : Nat :=
  ((CursorStore.ofCursors s.cursors).current owner).localOffset

/-- The disk after the first `k` writes of a save. -/
def Disk.after (disk : Disk) (kept : State) (k : Nat) : Disk :=
  ((save kept).take k).foldl (fun disk (item, text) =>
    Function.update disk item (some (.file text.toUTF8))) disk

def stopped (s kept : State) (k : Nat) : State where
  content := if 2 ≤ k then kept.content else s.content
  cursors := if 1 ≤ k then kept.cursors else s.cursors

/-- Each file has been read as a part of the state, or it has been written from it. -/
structure Holds (disk : Disk) (s : State) : Prop where
  content : loadContent? (disk .content) = some s.content ∨
    disk .content = some (.file s.content.text.toUTF8)
  cursors : loadCursors? (disk .cursors) = some s.cursors ∨
    disk .cursors = some (.file s.cursors.exportText.toUTF8)

/-- The content includes the records up to an offset: it is what was loaded, or what a snapshot at
that offset holds, or it has come of these by the changes up to there. Looking after containers does
not count. -/
inductive Includes (cfg : Config) (remote : Remote) (s : State) : Nat → Content → Prop
  | loaded : Includes cfg remote s (s.offset cfg.owner) s.content
  | snapshot {consumer : RemoteConsumer} {url : String} {files : List Snapshot.SourceFile}
      {c : Content} (hstart : s.offset cfg.owner = 0) (hconsumer : remote.consumer = .ok consumer)
      (hurl : consumer.snapshotLink? = some url) (hserved : Snapshot.Served remote url files)
      (hcatalog : Snapshot.catalog? cfg.space files = some (c.catalog cfg.space)) :
      Includes cfg remote s consumer.lastSnapshotOffset c
  | changes {consumer : RemoteConsumer} {lower : Nat} {changes : List Change}
      {effects : List Cycle.Effect} {c c' : Content} (h : Includes cfg remote s lower c)
      (hconsumer : remote.consumer = .ok consumer)
      (hchanges : (remote.changes lower consumer.lastOffset).changes = .ok changes)
      (happly : (c.catalog cfg.space).applyAll cfg.space (Cycle.inOrder changes) =
        some (effects, c'.catalog cfg.space)) :
      Includes cfg remote s (Cycle.lastOffset lower changes) c'
  | upkeep {n : Nat} {c c' : Content} (hc : c.Filed) (h : Includes cfg remote s n c)
      (hupkeeps : Content.Upkeeps c c') : Includes cfg remote s n c'

/-- A cursor on disk that has moved forward stands for records that the content on disk includes. -/
def Covered (cfg : Config) (remote : Remote) (s disk : State) : Prop :=
  s.offset cfg.owner < disk.offset cfg.owner →
    Includes cfg remote s (disk.offset cfg.owner) disk.content

theorem holds_stopped (hload : load? disk = some s) (kept : State) (k : Nat) :
    Holds (disk.after kept k) (stopped s kept k) := by
  obtain ⟨hcontent, hcursors⟩ := load?_eq_some_iff.mp hload
  match k with
  | 0 => exact ⟨.inl hcontent, .inl hcursors⟩
  | 1 => exact ⟨.inl hcontent, .inr rfl⟩
  | k + 2 =>
    exact ⟨.inr (by simp [Disk.after, save, stopped]), .inr (by simp [Disk.after, save, stopped])⟩

theorem outset_includes (hfiled : s.content.Filed) (howned : s.cursors.Owned) (cfg : Config)
    (remote : Remote) :
    Sync.Outset cfg remote (Includes cfg remote s) (Replica.of s.content s.cursors).world where
  filed := hfiled
  up _ _ := rfl
  owned := howned cfg.owner
  upheld :=
    { loaded := fun hstart hconsumer hurl hserved hcatalog =>
        .snapshot hstart hconsumer hurl hserved hcatalog
      applied := fun hconsumer hchanges h happly => .changes h hconsumer hchanges happly
      upkept := fun hc h hupkeeps => .upkeep hc h hupkeeps }
  resumed _ _ _ := .loaded

theorem synchronize_kept (cfg : Config) (remote : Remote) (s : State) :
    ∃ m, Sync.Call cfg remote (Replica.of s.content s.cursors) m ∧
      (Command.synchronize cfg remote s).2 = ⟨m.store.content, m.cursors.cursors⟩ := by
  refine ⟨_, Sync.call_after cfg remote _, ?_⟩
  unfold Command.synchronize ContentSpaces.after
  cases Sync.synchronize cfg remote (Replica.of s.content s.cursors) <;> rfl

/-- What a run keeps includes the records up to its cursor, if it has moved the cursor forward. -/
theorem covered_kept (hfiled : s.content.Filed) (howned : s.cursors.Owned) (cfg : Config)
    (remote : Remote) : Covered cfg remote s (Command.synchronize cfg remote s).2 := by
  obtain ⟨m, hcall, hkept⟩ := synchronize_kept cfg remote s
  rw [hkept]
  intro hforward
  cases (outset_includes hfiled howned cfg remote).call hcall with
  | idle hcontent hcursors hup =>
    have hsame : State.offset ⟨m.store.content, m.cursors.cursors⟩ cfg.owner =
        s.offset cfg.owner :=
      congrArg (fun cs => State.offset ⟨m.store.content, cs⟩ cfg.owner) hcursors
    omega
  | restarted hfiled' hup hcursor =>
    have hzero : State.offset ⟨m.store.content, m.cursors.cursors⟩ cfg.owner = 0 :=
      congrArg (fun found : Option Cursor => (found.getD _).localOffset) hcursor
    omega
  | stands h =>
    have hreached : State.offset ⟨m.store.content, m.cursors.cursors⟩ cfg.owner = _ := h.reached
    rw [hreached]
    exact h.right

/-! ## The files -/

def stored (files : Files) (directory : String) : Disk := fun item =>
  files.find? (item.path directory)

variable {files files' : Files} {directory : String}

theorem Item.eq_of_resolve? {item item' : Item} {p : List String}
    (h : files.resolve? (item.path directory) = some p)
    (h' : files.resolve? (item'.path directory) = some p) : item = item' := by
  have hplain (item : Item) : '/' ∉ item.fileName.toList ∧ item.fileName ∉ ["", ".", ".."] := by
    cases item <;> decide
  obtain ⟨q, rfl⟩ := Files.exists_of_resolve?_child (hplain item).1 (hplain item).2 h
  obtain ⟨q', hq'⟩ := Files.exists_of_resolve?_child (hplain item').1 (hplain item').2 h'
  have hname : item.fileName = item'.fileName :=
    List.singleton_inj.mp (List.append_inj_right' hq' rfl)
  revert hname
  cases item <;> cases item' <;> decide

/-- The two files do not stand at one path, so a write changes one of them. -/
theorem stored_write {item : Item} {text : String}
    (h : files.write (item.path directory) text = (files', true)) :
    stored files' directory =
      Function.update (stored files directory) item (some (.file text.toUTF8)) := by
  obtain ⟨p, hp, -⟩ := Files.write_of_made h
  funext item'
  rw [stored, Files.find?_write h, Function.update_apply]
  by_cases hitem : item' = item
  · subst hitem
    rw [if_pos rfl, if_pos rfl]
  · have hother : files.resolve? (item'.path directory) ≠ files.resolve? (item.path directory) :=
      fun hsame => hitem (Item.eq_of_resolve? (hsame.trans hp) hp)
    rw [if_neg hother, if_neg hitem]
    rfl

theorem stored_writeAll {writes : List (Item × String)}
    (h : files.writeAll (writes.map fun (item, text) => (item.path directory, text)) =
      (files', true)) :
    stored files' directory = writes.foldl (fun disk (item, text) =>
      Function.update disk item (some (.file text.toUTF8))) (stored files directory) := by
  induction writes generalizing files with
  | nil =>
    cases h
    rfl
  | cons entry writes ih =>
    obtain ⟨item, text⟩ := entry
    rw [List.map_cons, Files.writeAll] at h
    cases hwrite : files.write (item.path directory) text with
    | mk mid ok =>
      rw [hwrite] at h
      cases ok with
      | false => cases h
      | true =>
        rw [List.foldl_cons]
        dsimp only
        rw [← stored_write hwrite]
        exact ih h

theorem run_written (hload : load? (stored files directory) = some s) (cfg : Config)
    (remote : Config → Remote) :
    ((Command.sync cfg directory).run remote files.find?).written =
      (save (Command.synchronize cfg (remote cfg) s).2).map fun (item, text) =>
        (item.path directory, text) := by
  have hread : (load? fun item => files.find? (item.path directory)) = some s := hload
  rw [Command.run, hread]

theorem covered_stopped_iff (hload : load? disk = some s) (cfg : Config) (remote : Remote)
    (k : Nat) :
    let kept := (Command.synchronize cfg remote s).2
    Covered cfg remote s (stopped s kept k) ↔
      ¬ (k = 1 ∧ s.offset cfg.owner < kept.offset cfg.owner ∧
        ¬ Includes cfg remote s (kept.offset cfg.owner) s.content) := by
  obtain ⟨hcontent, hcursors⟩ := load?_eq_some_iff.mp hload
  have hkept := covered_kept (filed_of_loadContent? hcontent) (owned_of_loadCursors? hcursors) cfg
    remote
  intro kept
  match k with
  | 0 =>
    refine ⟨fun _ h => (nomatch h.1), fun _ hforward => ?_⟩
    exact absurd hforward (Nat.lt_irrefl _)
  | 1 =>
    constructor
    · rintro h ⟨-, hforward, hmissing⟩
      exact hmissing (h hforward)
    · intro h hforward
      exact Classical.byContradiction fun hmissing => h ⟨rfl, hforward, hmissing⟩
  | k + 2 =>
    refine ⟨fun _ h => (nomatch h.1), fun _ => ?_⟩
    exact hkept

/-- Of the writes of a run some first ones have been made when it stops; a write is made or not, and
not in part. The directory is covered then, unless the first alone has moved the cursor past what
the content had included before. -/
theorem stopped_covered_iff (hload : load? (stored files directory) = some s) (cfg : Config)
    (remote : Config → Remote) (n : Nat) :
    let run := (Command.sync cfg directory).run remote files.find?
    let kept := (Command.synchronize cfg (remote cfg) s).2
    ∃ k ≤ n, files.writeAll (run.written.take k) =
        ((files.writeAll (run.written.take n)).1, true) ∧
      Holds (stored (files.writeAll (run.written.take n)).1 directory) (stopped s kept k) ∧
      (Covered cfg (remote cfg) s (stopped s kept k) ↔
        ¬ (k = 1 ∧ s.offset cfg.owner < kept.offset cfg.owner ∧
          ¬ Includes cfg (remote cfg) s (kept.offset cfg.owner) s.content)) := by
  intro run kept
  obtain ⟨k, hk⟩ := Files.exists_writeAll_take files (run.written.take n)
  rw [List.take_take] at hk
  refine ⟨min k n, Nat.min_le_right k n, hk, ?_, covered_stopped_iff hload cfg (remote cfg) _⟩
  have hwritten : run.written.take (min k n) =
      ((save kept).take (min k n)).map fun (item, text) => (item.path directory, text) := by
    rw [List.map_take, ← run_written hload cfg remote]
  rw [stored_writeAll (hwritten ▸ hk)]
  exact holds_stopped hload kept _

section Trial

def blank : State := ⟨.empty, .empty⟩

theorem range_trialLog (lower : Nat) :
    Feed.Log.range Sync.trialLog lower 2 = if lower < 2 then Sync.trialLog else [] := by
  by_cases h : lower < 2 <;> simp [Feed.Log.range, Sync.trialLog, Change.creation, h]

theorem inOrder_trialLog : Cycle.inOrder Sync.trialLog = Sync.trialLog := List.mergeSort_singleton _

theorem isSome_rule_of_applyAll {cat cat' : Catalog} {effects : List Cycle.Effect}
    (h : cat.applyAll .standard Sync.trialLog = some (effects, cat')) :
    (cat'.get? ⟨.rule, "r"⟩).isSome := by
  have hkind : Kind.parse? "rule" = some .rule := by decide
  have hadmitted : Catalog.admit? (.object [("id", .string "r")]) =
      some (.object [("id", .string "r")]) := by rfl
  have hid : documentId (.object [("id", .string "r")]) = "r" := by decide
  have happly : cat.applyAll .standard Sync.trialLog =
      some ([.changed (Catalog.upsert? .standard .rule (.object [("id", .string "r")]))],
        cat.insert ⟨.rule, "r"⟩ (.object [("id", .string "r")])) := by
    simp [Sync.trialLog, Change.creation, Catalog.applyAll, Catalog.apply, Payload.kind?, Kind.name,
      hkind, hadmitted, hid]
  cases happly.symm.trans h
  rw [Table.get?_insert, if_pos rfl]
  rfl

/-- Content that includes the records up to the last offset of the remote has the rule. -/
theorem rule_of_includes {n : Nat} {c : Content}
    (h : Includes Sync.trialConfig Sync.trialRemote blank n c) (hn : 2 ≤ n) :
    ((c.catalog .standard).get? ⟨.rule, "r"⟩).isSome := by
  induction h with
  | loaded => cases hn
  | snapshot _ hconsumer _ _ _ =>
    cases hconsumer
    contradiction
  | @changes consumer lower changes effects c c' _ hconsumer hchanges happly ih =>
    cases hconsumer
    cases hchanges
    dsimp only at happly hn
    rw [range_trialLog] at happly hn
    by_cases hlower : lower < 2
    · rw [if_pos hlower, inOrder_trialLog] at happly
      exact isSome_rule_of_applyAll happly
    · rw [if_neg hlower, Cycle.inOrder, List.mergeSort_nil] at happly
      obtain ⟨-, hsame⟩ := Prod.mk.inj (Option.some.inj happly)
      exact hsame ▸ ih (Nat.le_of_not_lt hlower)
  | upkeep hc _ hupkeeps ih =>
    rw [Content.Upkeeps.get?_catalog hupkeeps hc (.inl (by decide))]
    exact ih hn

theorem resolve?_trial (item : Item) :
    Files.resolve? .empty (item.path ".") = some [item.fileName] := by
  cases item <;> decide +kernel

theorem load?_blank : load? (stored .empty ".") = some blank := by
  have hnone : stored .empty "." = fun _ => none := by
    funext item
    rw [stored, Files.find?, resolve?_trial]
    rfl
  rw [hnone]
  rfl

/-- The first write of a run in an empty directory is made. -/
theorem exists_write_trial (text : String) :
    ∃ files, Files.write .empty (Item.cursors.path ".") text = (files, true) := by
  rw [Files.write, resolve?_trial]
  exact ⟨_, rfl⟩

def trialRun : Command.Outcome :=
  (Command.sync Sync.trialConfig ".").run (fun _ => Sync.trialRemote) (Files.find? .empty)

def trialKept : State := (Command.synchronize Sync.trialConfig Sync.trialRemote blank).2

theorem written_trialRun : trialRun.written = (save trialKept).map fun (item, text) =>
    (item.path ".", text) :=
  run_written load?_blank Sync.trialConfig fun _ => Sync.trialRemote

/-- Nothing was on disk, and the run stops when it has written its cursor: the cursor stands at the
creation of a rule that is not on disk. -/
theorem blank_overtaken : load? (stored .empty ".") = some blank ∧
    ∃ files, Files.writeAll .empty (trialRun.written.take 1) = (files, true) ∧
      Holds (stored files ".") (stopped blank trialKept 1) ∧
      ¬ Covered Sync.trialConfig Sync.trialRemote blank (stopped blank trialKept 1) := by
  obtain ⟨files, hwrite⟩ := exists_write_trial trialKept.cursors.exportText
  have hwritten : Files.writeAll .empty (trialRun.written.take 1) = (files, true) := by
    rw [written_trialRun]
    simp [save, Files.writeAll, hwrite]
  refine ⟨load?_blank, files, hwritten, ?_, fun h => ?_⟩
  · rw [written_trialRun, ← List.map_take] at hwritten
    rw [stored_writeAll hwritten]
    exact holds_stopped load?_blank trialKept 1
  · have hoffset : (stopped blank trialKept 1).offset Sync.trialConfig.owner = 2 := by
      decide +kernel
    have hincluded := h (by rw [hoffset]; decide)
    rw [hoffset] at hincluded
    cases rule_of_includes hincluded (Nat.le_refl 2)

/-- A run in an empty directory that is let make both writes. -/
theorem blank_covered : load? (stored .empty ".") = some blank ∧
    ∃ k ≤ 2, Files.writeAll .empty (trialRun.written.take k) =
        ((Files.writeAll .empty (trialRun.written.take 2)).1, true) ∧
      Holds (stored (Files.writeAll .empty (trialRun.written.take 2)).1 ".")
        (stopped blank trialKept k) ∧
      (Covered Sync.trialConfig Sync.trialRemote blank (stopped blank trialKept k) ↔
        ¬ (k = 1 ∧ blank.offset Sync.trialConfig.owner < trialKept.offset Sync.trialConfig.owner ∧
          ¬ Includes Sync.trialConfig Sync.trialRemote blank
            (trialKept.offset Sync.trialConfig.owner) blank.content)) :=
  ⟨load?_blank,
    stopped_covered_iff load?_blank Sync.trialConfig (fun _ => Sync.trialRemote) 2⟩

end Trial

end DataDirectory

end ContentSpaces
