import ContentSpaces.DataDirectory
import ContentSpaces.Feed.Log
import ContentSpaces.Proofs.Provenance
import ContentSpaces.Proofs.Synchronisation
import ContentSpaces.Proofs.Wire

/-!
# Content across runs

Content that has come from a remote catalog is written to a file and read back by the next run. The
file nests each document two containers deep, and what a text may nest is limited, so the content
comes back exactly if no document uses the last two levels. A snapshot or a patch may build one that
does.
-/

namespace ContentSpaces

open Replica
open Json (Tree)

namespace Sync

variable {cfg : Config} {remote : Remote}

theorem upholds_bootstrap (remote : Remote) (url : String) (offset : Nat) :
    Upholds Content.Orderly (bootstrap cfg remote url offset) fun _ => True :=
  Keeps.tryCatch (Snapshot.upholds_bootstrap (Content.Orderly.lasting cfg.space) remote url offset)
    fun _ => (upholds_attempt (upholds_onCursors _)).bind fun _ _ => .throw

theorem upholds_start (remote : Remote) (consumer : RemoteConsumer) (offset : Nat) :
    Upholds Content.Orderly (start cfg remote consumer offset) fun _ => True := by
  unfold start
  split
  · exact .pure trivial
  · refine (upholds_bootstrap remote _ _).bind fun report _ => ?_
    exact (upholds_reads (reads_snapshotTasks cfg.space)).bind fun _ _ => .pure trivial

theorem upholds_follow (hremote : remote.Ordered) (upper : Nat) (a : Advance) :
    Upholds Content.Orderly (follow cfg remote upper a) fun _ => True := by
  unfold follow
  split
  · exact (Cycle.upholds_update (Content.Orderly.lasting cfg.space) hremote a.offset upper).bind
      fun _ _ => .pure trivial
  · exact .pure trivial

theorem upholds_settle (a : Advance) :
    Upholds Content.Orderly (settle cfg a) fun _ => True := by
  have hdispatched : Upholds Content.Orderly (dispatchAll cfg a.tasks) fun _ => True :=
    fun _ hm => ⟨trivial, hm⟩
  unfold settle
  split
  · refine (upholds_onStore (Store.keeps_initializeSpaces fun _ _ => .upkeeps)).bind fun _ _ => ?_
    refine hdispatched.bind fun _ _ => ?_
    refine (upholds_onStore (Store.keeps_recalculate Space.all (fun _ hc => hc.filed)
      fun _ _ => .upkeeps)).bind fun _ _ => .pure trivial
  · exact .pure trivial

theorem upholds_synchronize (hremote : remote.Ordered) :
    Upholds Content.Orderly (synchronize cfg remote) fun _ => True := by
  refine (upholds_onCursors _).bind fun cursor _ => (upholds_ask _ _).bind fun answer _ => ?_
  refine Keeps.bind (R := fun _ => True) (.ofExcept fun _ _ => trivial) fun consumer _ => ?_
  refine (upholds_start remote consumer _).bind fun started _ => ?_
  refine (upholds_follow hremote _ started).bind fun advance _ => (upholds_settle advance).bind
    fun _ _ => ?_
  exact (upholds_onCursors _).bind fun _ _ => .pure trivial

end Sync

namespace Content

/-- The content of a store that was empty at first and has only followed remote catalogs. Each call
may meet another outage and another remote, and may fail; batches of changes are read from text. -/
inductive Gathered : Content → Prop
  | empty : Gathered .empty
  | bootstrap {m : Replica} (h : Gathered m.store.content) (cfg : Config) (remote : Remote)
      (url : String) (offset : Nat) :
      Gathered (after (Snapshot.bootstrap cfg remote url offset) m).store.content
  | update {m : Replica} (h : Gathered m.store.content) (cfg : Config) {remote : Remote}
      (hremote : remote.Textual) (lower upper : Nat) :
      Gathered (after (Cycle.update cfg remote lower upper) m).store.content
  | synchronize {m : Replica} (h : Gathered m.store.content) (cfg : Config) {remote : Remote}
      (hremote : remote.Textual) :
      Gathered (after (Sync.synchronize cfg remote) m).store.content
  | recalculate {s : Store} (h : Gathered s.content) (spaces : List Space) :
      Gathered (after (Store.recalculate spaces) s).content

variable {c : Content}

theorem Gathered.orderly (h : Gathered c) : c.Orderly := by
  induction h with
  | empty => exact .empty
  | bootstrap _ cfg remote url offset ih =>
    exact Keeps.after (Snapshot.upholds_bootstrap (Orderly.lasting cfg.space) remote url offset) ih
  | update _ cfg hremote lower upper ih =>
    have hlasting := Orderly.lasting cfg.space
    exact Keeps.after (Cycle.upholds_update hlasting hremote.ordered lower upper) ih
  | synchronize _ cfg hremote ih => exact Keeps.after (Sync.upholds_synchronize hremote.ordered) ih
  | recalculate _ spaces ih =>
    exact Keeps.after (Store.keeps_recalculate spaces (fun _ hc => hc.filed) fun _ _ => .upkeeps) ih

theorem Filed.mem_values_iff (hc : c.Filed) {r : Resource} :
    r ∈ c.values ↔ c.get? r.address = some r := Table.mem_values_iff hc

/-- Filing all resources again gives the same content. -/
theorem Filed.fileAll_values (hc : c.Filed) : Content.fileAll .empty c.values = c := by
  apply Table.ext_get?
  intro a
  rw [get?_fileAll, Table.get?_empty, Option.or_none, Table.find?_values hc]

end Content

theorem Resource.integral_toJson {r : Resource} (h : r.document.Integral) : r.toJson.Integral := by
  have htag : r.tagJson.Integral := by
    unfold tagJson
    cases r.aggregate with
    | none => exact ⟨trivial, trivial⟩
    | some digest => exact ⟨trivial, ⟨trivial, trivial⟩, trivial⟩
  exact ⟨trivial, h, htag, ⟨trivial, trivial⟩, trivial⟩

namespace Content

variable {c : Content}

theorem Orderly.ofText?_text (h : c.Orderly) (hintegral : ∀ r ∈ c.values, r.document.Integral) :
    ofText? c.text =
      if ∀ r ∈ c.values, r.document.depth + 2 ≤ Tree.maxDepth then some c else none := by
  have hscanned : Tree.scan? c.text.toList =
      some (.array ((c.values.map Resource.toJson).map Tree.ofJson)) := by
    have hitems : (Json.array (c.values.map Resource.toJson)).Integral :=
      Json.integralItems_iff.mpr (List.forall_mem_map.mpr fun r hr =>
        Resource.integral_toJson (hintegral r hr))
    rw [text, Json.compact, String.toList_ofList, Tree.scan?_write hitems, Tree.ofJson,
      Tree.ofItems_eq_map]
  have hread : (c.values.map fun r => Tree.ofJson r.toJson).mapM (Resource.decode 126) =
      if ∀ r ∈ c.values, r.document.depth + 2 ≤ Tree.maxDepth then some c.values else none := by
    refine Wire.mapM_eq_ite fun r hr => ?_
    have hstored := h.filed.mem_values_iff.mp hr
    rw [Resource.decode_toJson 123 r (h.ordered _ _ hstored)]
    refine if_congr ?_ rfl rfl
    show r.document.depth ≤ 123 + 2 ↔ r.document.depth + 2 ≤ 127
    omega
  have hlist : Wire.ofText? (Wire.list Resource.decode) c.text =
      (c.values.map fun r => Tree.ofJson r.toJson).mapM (Resource.decode 126) := by
    rw [Wire.ofText?, hscanned, List.map_map]
    rfl
  rw [ofText?, hlist, hread, Option.map_if, h.filed.fileAll_values]

theorem Orderly.loadContent?_text (h : c.Orderly)
    (hintegral : ∀ r ∈ c.values, r.document.Integral) :
    DataDirectory.loadContent? (some (.file c.text.toUTF8)) =
      if ∀ r ∈ c.values, r.document.depth + 2 ≤ Tree.maxDepth then some c else none := by
  have htext : String.fromUTF8? c.text.toUTF8 = some c.text := dif_pos c.text.isValidUTF8
  rw [DataDirectory.loadContent?, Node.text?, htext, Option.bind_some, h.ofText?_text hintegral]

theorem Filed.forall_mem_values_iff (hc : c.Filed) {p : Resource → Prop} :
    (∀ r ∈ c.values, p r) ↔ ∀ a r, c.get? a = some r → p r := by
  constructor
  · intro h a r hr
    exact h r (hc.mem_values_iff.mpr (hc a r hr ▸ hr))
  · intro h r hr
    exact h _ r (hc.mem_values_iff.mp hr)

/-- The next run reads back the content as it was, exactly if no document nests so deeply that the
file would nest more than a text may. -/
theorem Gathered.loadContent?_iff (h : Gathered c)
    (hintegral : ∀ a r, c.get? a = some r → r.document.Integral) :
    DataDirectory.loadContent? (some (.file c.text.toUTF8)) = some c ↔
      ∀ a r, c.get? a = some r → r.document.depth + 2 ≤ Tree.maxDepth := by
  have hfiled := h.orderly.filed
  rw [h.orderly.loadContent?_text (hfiled.forall_mem_values_iff.mpr hintegral),
    ← hfiled.forall_mem_values_iff]
  by_cases hfits : ∀ r ∈ c.values, r.document.depth + 2 ≤ Tree.maxDepth
  · rw [if_pos hfits]
    exact iff_of_true rfl hfits
  · rw [if_neg hfits]
    exact iff_of_false nofun hfits

section Trial

def nested : Nat → Json
  | 0 => .array []
  | n + 1 => .array [nested n]

/-- A rule is created, gets a field of nested arrays, and has the field copied into itself. -/
def nestings (depth copies : Nat) : List Change :=
  [.creation 1 .rule (.object [("id", .string "r")]),
    .revision 2 "r" (.withValue .add "/a" (nested depth) ::
      List.replicate copies (.withSource .copy "/a" "/a/-"))]

theorem integral_nested : ∀ n, (nested n).Integral
  | 0 => trivial
  | n + 1 => ⟨integral_nested n, trivial⟩

theorem integral_nestings (depth copies lower upper : Nat) :
    (Change.batchJson (Feed.Log.range (nestings depth copies) lower upper)).Integral := by
  refine ⟨Json.integralItems_iff.mpr (List.forall_mem_map.mpr fun c hc => ?_), trivial⟩
  obtain hc := (List.mem_filter.mp hc).1
  simp only [nestings, List.mem_cons, List.not_mem_nil, or_false] at hc
  obtain rfl | rfl := hc
  · decide
  · have hoperations : Json.IntegralItems
        ((List.replicate copies (Patch.Operation.withSource .copy "/a" "/a/-")).map
          Patch.Operation.toJson) := by
      refine Json.integralItems_iff.mpr (List.forall_mem_map.mpr fun op hop => ?_)
      obtain ⟨-, rfl⟩ := List.mem_replicate.mp hop
      decide
    have hadded : (Patch.Operation.withValue .add "/a" (nested depth)).toJson.Integral :=
      ⟨trivial, trivial, integral_nested depth, trivial⟩
    have hoffset : (Json.ofNat 2).Integral := by decide
    exact ⟨hoffset, trivial, trivial, trivial, trivial, ⟨hadded, hoperations⟩, trivial, trivial⟩

def nestingRemote (depth copies : Nat) : Remote where
  consumer := .ok .empty
  changes lower upper :=
    { changes := match Wire.ofJson? Change.decodeBatch
          (Change.batchJson (Feed.Log.range (nestings depth copies) lower upper)) with
        | some changes => .ok changes
        | none => .error .io
      cancelled := false }
  snapshot _ := .error .io

theorem textual_nestingRemote (depth copies : Nat) : (nestingRemote depth copies).Textual := by
  intro lower upper changes h
  dsimp only [nestingRemote] at h
  split at h
  · rename_i hread
    cases h
    exact .inl ⟨_, (Wire.ofText?_compact (integral_nestings depth copies lower upper) _).trans hread⟩
  · cases h

def nestingReplica (depth copies : Nat) : Replica :=
  after (Cycle.update Sync.trialConfig (nestingRemote depth copies) 0 1) (.of .empty .empty)

def nestedReplica (depth copies : Nat) : Replica :=
  after (Cycle.update Sync.trialConfig (nestingRemote depth copies) 1 2)
    (nestingReplica depth copies)

theorem gathered_nestedReplica (depth copies : Nat) :
    Gathered (nestedReplica depth copies).store.content := by
  have htextual := textual_nestingRemote depth copies
  have hblank : Gathered (Replica.of .empty .empty).store.content := .empty
  have hfirst : Gathered (nestingReplica depth copies).store.content := by
    unfold nestingReplica
    exact hblank.update Sync.trialConfig htextual 0 1
  unfold nestedReplica
  exact hfirst.update Sync.trialConfig htextual 1 2

theorem nestedReplica_integral (depth copies : Nat)
    (h : ∀ r ∈ (nestedReplica depth copies).store.content.values, r.document.Integral) :
    ∀ a r, (nestedReplica depth copies).store.content.get? a = some r → r.document.Integral :=
  (gathered_nestedReplica depth copies).orderly.filed.forall_mem_values_iff.mp h

/-- A document that nests a little is read back. -/
theorem nested_loaded : Gathered (nestedReplica 1 1).store.content ∧
    (∀ a r, (nestedReplica 1 1).store.content.get? a = some r → r.document.Integral) ∧
    DataDirectory.loadContent? (some (.file (nestedReplica 1 1).store.content.text.toUTF8)) =
      some (nestedReplica 1 1).store.content := by
  have hgathered := gathered_nestedReplica 1 1
  have hintegral := nestedReplica_integral 1 1 (by decide +kernel)
  refine ⟨hgathered, hintegral, (hgathered.loadContent?_iff hintegral).mpr ?_⟩
  exact hgathered.orderly.filed.forall_mem_values_iff.mp (by decide +kernel)

/-- Copying a field into itself nests the document one container too deep. -/
theorem nested_lost : Gathered (nestedReplica 121 3).store.content ∧
    (∀ a r, (nestedReplica 121 3).store.content.get? a = some r → r.document.Integral) ∧
    DataDirectory.loadContent? (some (.file (nestedReplica 121 3).store.content.text.toUTF8)) =
      none := by
  have hgathered := gathered_nestedReplica 121 3
  have hboth : (∀ r ∈ (nestedReplica 121 3).store.content.values, r.document.Integral) ∧
      ¬ ∀ r ∈ (nestedReplica 121 3).store.content.values,
        r.document.depth + 2 ≤ Tree.maxDepth := by
    decide +kernel
  refine ⟨hgathered, nestedReplica_integral 121 3 hboth.1, ?_⟩
  rw [hgathered.orderly.loadContent?_text hboth.1, if_neg hboth.2]

end Trial

end Content

end ContentSpaces
