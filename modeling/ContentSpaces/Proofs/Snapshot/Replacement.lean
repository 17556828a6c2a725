import ContentSpaces.Proofs.Archive.Collision
import ContentSpaces.Proofs.Synchronisation
import Mathlib.Data.List.Find

/-!
# A snapshot replaces a space

After a snapshot has been loaded, the space holds for each kind and ID what the last line says that
has a resource of them, and nothing else. What the space held before and how the resources were
gathered for writing leave no trace. The report counts the lines one by one.
-/

namespace ContentSpaces

namespace Content

variable {space : Space}

def withoutSpace (c : Content) (space : Space) : Content := c.filterKeys fun a => a.space != space

theorem get?_withoutSpace (c : Content) (space : Space) (a : Address) :
    (c.withoutSpace space).get? a = if a.space = space then none else c.get? a := by
  unfold withoutSpace
  rw [Table.get?_filterKeys]
  by_cases h : a.space = space <;> simp [h]

/-- Of the resources filed under an address the last stands. -/
theorem get?_fileAll (c : Content) (rs : List Resource) (a : Address) :
    (c.fileAll rs).get? a = (rs.reverse.find? fun r => r.address = a).or (c.get? a) := by
  have hlast := Table.get?_foldl_insert Resource.address (fun r => r) rs c a
  rwa [Option.map_id'] at hlast

end Content

namespace Store

variable {space : Space}

theorem ensures_clearAmong_exact (kinds : List Kind) (c : Content) :
    Ensures (·.content = c) (kinds.mapM fun kind => clear kind space)
      (fun _ s => ∀ a, s.content.get? a =
        if a.space = space ∧ a.kind ∈ kinds then none else c.get? a) (fun _ _ => True) := by
  induction kinds generalizing c with
  | nil =>
    refine .mapM_nil fun s hs a => ?_
    simp [hs]
  | cons kind kinds ih =>
    refine .mapM_cons ((ensures_clear kind space c).mono_error fun _ _ _ => trivial) fun _ => ?_
    refine (ih (c.withoutCollection kind space)).mono_ok fun _ s hs a => ?_
    rw [hs, Content.get?_withoutCollection]
    by_cases hspace : a.space = space
    · by_cases hkind : a.kind = kind <;> simp [hspace, hkind]
    · simp [hspace]

theorem ensures_clearSpace_exact (c : Content) :
    Ensures (·.content = c) (clearSpace space) (fun _ s => s.content = c.withoutSpace space)
      (fun _ _ => True) := by
  refine (ensures_clearAmong_exact Kind.all c).bind fun _ => .pure fun s hs => ?_
  apply Table.ext_get?
  intro a
  rw [hs, Content.get?_withoutSpace]
  simp [a.kind.mem_all]

end Store

namespace Snapshot

open Replica

variable {cfg : Config} {space : Space} {w : World} {line : Line} {lines : List Line}

/-- The resource that a line holds, if it is a record of a known kind with a valid document. -/
def Line.resource? (space : Space) (line : Line) : Option Resource := do
  let text ← String.fromUTF8? ⟨line.bytes.toArray⟩
  let record ← Json.ofText? (Text.trim text)
  ofRecord space record

/-- The line is a record of the kind and holds the document that the resource has sanitized. -/
structure Line.Holds (space : Space) (line : Line) (r : Resource) : Prop where
  record : ∃ text record payload name document,
    String.fromUTF8? ⟨line.bytes.toArray⟩ = some text ∧
    Json.ofText? (Text.trim text) = some record ∧ record.field? "payload" = some payload ∧
    payload.stringField? "type" = some name ∧ Kind.parse? name = some r.kind ∧
    payload.field? "document" = some document ∧ r.document = Sanitize.document document
  valid : checkDocument r.document = .ok ()
  space_eq : r.space = space
  hash_eq : r.hash = Digest.ofDocument r.document
  aggregate_eq : r.aggregate = none

theorem Line.resource?_eq_some_iff {r : Resource} :
    line.resource? space = some r ↔ line.Holds space r := by
  unfold Line.resource? ofRecord
  simp only [Option.bind_eq_bind, Option.bind_eq_some_iff]
  constructor
  · rintro ⟨text, htext, record, hrecord, payload, hpayload, name, hname, kind, hkind, document,
      hdocument, h⟩
    cases hingest : Resource.ingest kind space document with
    | error e =>
      rw [hingest] at h
      cases h
    | ok r' =>
      rw [hingest] at h
      cases h
      obtain ⟨hvalid, rfl⟩ := Resource.create_eq_ok_iff.mp hingest
      exact ⟨⟨text, record, payload, name, document, htext, hrecord, hpayload, hname, hkind,
        hdocument, rfl⟩, hvalid, rfl, rfl, rfl⟩
  · rintro ⟨⟨text, record, payload, name, document, htext, hrecord, hpayload, hname, hkind,
      hdocument, hsanitized⟩, hvalid, hspace, hhash, haggregate⟩
    have hingest : Resource.ingest r.kind space document = .ok r := by
      refine Resource.create_eq_ok_iff.mpr ⟨hsanitized ▸ hvalid, ?_⟩
      cases r
      simp_all
    refine ⟨text, htext, record, hrecord, payload, hpayload, name, hname, r.kind, hkind, document,
      hdocument, ?_⟩
    rw [hingest]
    rfl

def Line.isBlank (line : Line) : Bool :=
  (String.fromUTF8? ⟨line.bytes.toArray⟩).any fun text => Text.trim text == ""

def Line.isSkipped (space : Space) (line : Line) : Bool :=
  !line.isBlank && (line.resource? space).isNone

theorem ofText?_empty : Json.ofText? "" = none := by
  have h : (Json.ofText? "").isNone = true := by decide +kernel
  exact Option.isNone_iff_eq_none.mp h

/-- What is read off a line that can be read. -/
theorem line_of_readLine {entry : Entry} (h : readLine space line = .ok entry) :
    match entry with
    | .blank => line.isSkipped space = false ∧ line.resource? space = none
    | .skipped => line.isSkipped space = true ∧ line.resource? space = none
    | .resource r => line.isSkipped space = false ∧ line.resource? space = some r := by
  unfold readLine at h
  unfold Line.isSkipped Line.isBlank Line.resource?
  cases htext : String.fromUTF8? ⟨line.bytes.toArray⟩ with
  | none =>
    rw [htext] at h
    cases h
  | some text =>
    simp only [htext] at h
    simp only [Option.any_some, Option.bind_eq_bind, Option.bind_some]
    by_cases hblank : Text.trim text = ""
    · rw [if_pos hblank] at h
      cases h
      simp [hblank, ofText?_empty]
    · rw [if_neg hblank] at h
      cases hrecord : Json.ofText? (Text.trim text) with
      | none =>
        rw [hrecord] at h
        cases h
      | some record =>
        rw [hrecord] at h
        cases hr : ofRecord space record with
        | none =>
          simp only [hr] at h
          cases h
          simp [hblank, hr]
        | some r =>
          simp only [hr] at h
          cases h
          simp [hr]

theorem eq_filterMap_of_resources {rs : List Resource} (h : resources space lines = .ok rs) :
    rs = lines.filterMap (Line.resource? space) := by
  induction lines generalizing rs with
  | nil =>
    cases h
    rfl
  | cons line lines ih =>
    unfold resources at h
    cases hentry : readLine space line with
    | error e =>
      rw [hentry] at h
      cases h
    | ok entry =>
      have hline := line_of_readLine hentry
      rw [hentry] at h
      cases entry with
      | blank => rw [List.filterMap_cons_none hline.2, ih h]
      | skipped => rw [List.filterMap_cons_none hline.2, ih h]
      | resource r =>
        rw [List.filterMap_cons_some hline.2]
        cases hrest : resources space lines with
        | error e =>
          simp only [hrest] at h
          cases h
        | ok rest =>
          simp only [hrest] at h
          cases h
          rw [ih hrest]

/-- The numbers of resources by kind, with those of a list added. -/
def counted (loaded : Table Kind Nat) (rs : List Resource) : Table Kind Nat :=
  rs.foldl (fun t r => t.insert r.kind ((t.get? r.kind).getD 0 + 1)) loaded

theorem get?_counted (loaded : Table Kind Nat) (rs : List Resource) (kind : Kind) :
    (counted loaded rs).get? kind =
      if rs.countP (fun r => r.kind = kind) = 0 then loaded.get? kind
      else some ((loaded.get? kind).getD 0 + rs.countP fun r => r.kind = kind) := by
  induction rs generalizing loaded with
  | nil => rfl
  | cons r rs ih =>
    have hstep : counted loaded (r :: rs) =
        counted (loaded.insert r.kind ((loaded.get? r.kind).getD 0 + 1)) rs := rfl
    rw [hstep, ih, Table.get?_insert, List.countP_cons]
    by_cases hkind : kind = r.kind
    · subst hkind
      simp only [if_true, decide_true, Option.getD_some, Nat.add_eq_zero_iff, Nat.succ_ne_self,
        and_false, if_false]
      split
      · rename_i hzero
        rw [hzero]
      · rw [Nat.add_right_comm, Nat.add_assoc]
    · have hne : r.kind ≠ kind := fun h => hkind h.symm
      simp [hkind, hne]

theorem ensures_flush_counts (l : Loading) : Ensures (fun _ => True) l.flush
    (fun l' _ => l'.loaded = l.loaded ∧ l'.skipped = l.skipped) (fun _ _ => True) :=
  Ensures.bind (R := fun _ _ => True) (.intro (fun _ _ _ _ _ => trivial) fun _ _ _ _ _ => trivial)
    fun _ => .pure fun _ _ => ⟨rfl, rfl⟩

/-- Every line is counted once, whenever resources are written. -/
theorem ensures_load_counts {l : Loading} {loaded : Table Kind Nat} {skipped : Nat}
    (hloaded : l.loaded = loaded) (hskipped : l.skipped = skipped) :
    Ensures (fun _ => True) (load cfg lines l)
      (fun l' _ => l'.loaded = counted loaded (lines.filterMap (Line.resource? cfg.space)) ∧
        l'.skipped = skipped + lines.countP (Line.isSkipped cfg.space))
      (fun _ _ => True) := by
  -- Writing resources leaves the counts alone, so nothing need be known of the store.
  induction lines generalizing l loaded skipped with
  | nil =>
    subst hloaded hskipped
    unfold load
    split
    · exact .pure fun _ _ => ⟨rfl, rfl⟩
    · exact ensures_flush_counts l
  | cons line lines ih =>
    unfold load
    refine Ensures.bind (R := fun entry _ => readLine cfg.space line = .ok entry ∧ True)
      (.ofExcept (fun _ _ hentry _ => ⟨hentry, trivial⟩) fun _ _ _ _ => trivial) fun entry =>
        .of_and fun hentry => ?_
    have hline := line_of_readLine hentry
    rw [List.countP_cons]
    cases entry with
    | blank =>
      rw [List.filterMap_cons_none hline.2, hline.1]
      exact ih hloaded hskipped
    | skipped =>
      rw [List.filterMap_cons_none hline.2, hline.1, if_pos rfl]
      refine (ih (l := { l with skipped := l.skipped + 1 }) hloaded
        (congrArg (· + 1) hskipped)).mono_ok fun _ _ h => ⟨h.1, ?_⟩
      rw [h.2]
      omega
    | resource r =>
      rw [List.filterMap_cons_some hline.2, hline.1]
      have hadded : (l.add r).loaded = loaded.insert r.kind ((loaded.get? r.kind).getD 0 + 1) := by
        rw [← hloaded]
        rfl
      dsimp only
      split
      · refine Ensures.bind (ensures_flush_counts (l.add r)) fun l' => ?_
        refine Ensures.mono (P := fun _ => (l'.loaded = (l.add r).loaded ∧
          l'.skipped = (l.add r).skipped) ∧ True) (.of_and fun hl' => ?_)
          (fun _ h => ⟨h, trivial⟩) (fun _ _ h => h) fun _ _ h => h
        exact ih (hl'.1.trans hadded) (hl'.2.trans hskipped)
      · exact ih hadded hskipped

/-- What loading the lines of files makes of the content and of the counts. -/
structure LoadedAll (space : Space) (lines : List Line) (c : Content) (l : Loading)
    (c' : Content) : Prop where
  content : c' = (c.withoutSpace space).fileAll (lines.filterMap (Line.resource? space))
  loaded : l.loaded = counted .empty (lines.filterMap (Line.resource? space))
  skipped : l.skipped = lines.countP (Line.isSkipped space)

theorem ensures_replaceContent_exact (files : List SourceFile) :
    Ensures (·.world = w) (replaceContent cfg files)
      (fun l m => ∃ c, LoadedAll cfg.space (files.flatMap linesOf) w.content l c ∧
        m.world = { w with content := c })
      (fun _ _ => True) := by
  unfold replaceContent
  refine Ensures.bind ((ensures_onStore (Q := fun _ c => c = w.content.withoutSpace cfg.space)
    (E := fun _ => True) (Store.ensures_clearSpace_exact w.content)).mono_error
    fun _ _ _ => trivial) fun _ => .of_exists fun cleared => .of_and fun hcleared => ?_
  refine Ensures.tryCatch (R := fun _ _ => True) ?_ fun e => ?_
  · dsimp only
    split
    · exact .throw_bind fun _ _ => trivial
    · refine ((ensures_load (l := .none) (List.forall_mem_nil _)).and
        (ensures_load_counts (l := .none) rfl rfl)).mono (fun _ h => ⟨h, trivial⟩) ?_
        fun _ _ _ => trivial
      rintro l m ⟨⟨c, hloaded, h⟩, hcounts⟩
      obtain ⟨rs, hrs, rfl⟩ := hloaded.read
      obtain rfl := eq_filterMap_of_resources hrs
      subst hcleared
      exact ⟨_, ⟨rfl, hcounts.1, hcounts.2.trans (Nat.zero_add _)⟩, h⟩
  · exact Ensures.bind (R := fun _ _ => True)
      (.intro (fun _ _ _ _ _ => trivial) fun _ _ _ _ _ => trivial) fun _ =>
        .throw fun _ _ => trivial

theorem exists_install_of_bootstrap {remote : Remote} {url : String} {offset : Nat}
    {m m' : Replica} {report : Report} (hurl : Text.isBlankText url = false)
    (h : bootstrap cfg remote url offset m = .ok report m') :
    ∃ files mid, fetch cfg remote url m = .ok files mid ∧
      install cfg url offset files mid = .ok report m' := by
  unfold bootstrap at h
  rw [if_neg (by simp [hurl])] at h
  obtain ⟨m, read, hread, h⟩ := bind_eq_ok_iff.mp h
  cases hread
  split at h
  · cases h
  · obtain ⟨files, mid, hfetch, h⟩ := bind_eq_ok_iff.mp h
    exact ⟨files, mid, hfetch, h⟩

theorem fetch_of_unpack {remote : Remote} {url : String} {download : Download}
    {files : List SourceFile} (hdeadline : cfg.snapshotDeadline = none)
    (hdownload : remote.snapshot url = .ok download)
    (hunpack : unpack download.archive false = .ok files) (m : Replica) :
    fetch cfg remote url m = .ok files { m with requests := m.requests ++ [.snapshot url] } := by
  unfold fetch
  rw [hdeadline, hdownload, if_neg nofun]
  refine bind_eq_ok_iff.mpr ⟨_, _, rfl, bind_eq_ok_iff.mpr ⟨_, _, rfl, ?_⟩⟩
  rw [Option.any_none, hunpack]
  rfl

theorem bootstrap_of_install {remote : Remote} {url : String} {offset : Nat} {m mid m' : Replica}
    {files : List SourceFile} {report : Report} (hurl : Text.isBlankText url = false)
    (hdirectory : cfg.workDirectory = none) (hfetch : fetch cfg remote url m = .ok files mid)
    (h : install cfg url offset files mid = .ok report m') :
    bootstrap cfg remote url offset m = .ok report m' := by
  unfold bootstrap
  rw [if_neg (by simp [hurl]), hdirectory]
  exact bind_eq_ok_iff.mpr ⟨_, _, rfl, bind_eq_ok_iff.mpr ⟨_, _, hfetch, h⟩⟩

theorem ensures_install_exact (url : String) (offset : Nat) (files : List SourceFile) :
    Ensures (·.world = w) (install cfg url offset files)
      (fun report m => ∃ c l,
        LoadedAll cfg.space ((recordFiles files).flatMap linesOf) w.content l c ∧
        report = ⟨url, offset, l.loaded, l.skipped, (recordFiles files).length⟩ ∧
        m.world = { w with
          content := c
          cursors := { w.cursors with
            cursors := w.cursors.cursors.put { w.cursors.current cfg.owner with
              localOffset := offset
              remoteOffset := offset
              snapshotLink := url }
            calls := w.cursors.calls + 2 } })
      (fun _ _ => True) := by
  unfold install
  refine (ensures_replaceContent_exact (recordFiles files)).bind fun l =>
    .of_exists fun c => .of_and fun hloaded => ?_
  refine ((ensures_onCursors (CursorStore.ensures_revise _ _ _)).mono_error
    fun _ _ _ => trivial).bind fun _ => .pure ?_
  rintro m ⟨s, rfl, h⟩
  exact ⟨c, l, hloaded, rfl, h⟩

theorem perm_recordFiles (files : List SourceFile) :
    (recordFiles files).Perm (files.filter fun f => f.path.extension? == some "json") :=
  List.mergeSort_perm _ _

theorem ascending_recordFiles {files : List SourceFile}
    (hpaths : (files.map SourceFile.path).Nodup) :
    (recordFiles files).Pairwise fun a b => compare a.path b.path = .lt := by
  have hsorted : (recordFiles files).Pairwise fun a b => (compare a.path b.path).isLE = true := by
    refine List.pairwise_mergeSort (fun a b c hab hbc => ?_) (fun a b => ?_) _
    · exact Std.TransCmp.isLE_trans hab hbc
    · have hswap : compare b.path a.path = (compare a.path b.path).swap := Std.OrientedCmp.eq_swap
      rw [hswap]
      cases compare a.path b.path <;> rfl
  have hdistinct : ((recordFiles files).map SourceFile.path).Nodup := by
    refine ((perm_recordFiles files).map SourceFile.path).nodup_iff.mpr ?_
    exact hpaths.sublist (List.filter_sublist.map SourceFile.path)
  refine (hsorted.and (List.pairwise_map.mp hdistinct)).imp ?_
  rintro a b ⟨hle, hne⟩
  cases hab : compare a.path b.path with
  | lt => rfl
  | eq => exact absurd (Std.LawfulEqCmp.compare_eq_iff_eq.mp hab) hne
  | gt =>
    rw [hab] at hle
    cases hle

/-- There is one way to list files in the order of their paths. -/
theorem eq_of_ascending {files files' : List SourceFile} (hperm : files.Perm files')
    (h : files.Pairwise fun a b => compare a.path b.path = .lt)
    (h' : files'.Pairwise fun a b => compare a.path b.path = .lt) : files = files' := by
  refine hperm.eq_of_pairwise (fun a b _ _ hab hba => ?_) h h'
  have hswap : compare a.path b.path = (compare b.path a.path).swap := Std.OrientedCmp.eq_swap
  rw [hswap, hba] at hab
  cases hab

/-- What a loaded snapshot makes of a replica whose lines are these, in the order of the paths. -/
structure Replacement (cfg : Config) (url : String) (offset : Nat) (lines : List Line)
    (m : Replica) (report : Report) (m' : Replica) : Prop where
  own : ∀ kind id, m'.store.content.get? ⟨kind, cfg.space, id⟩ =
    (lines.filterMap (Line.resource? cfg.space)).reverse.find? fun r => r.kind = kind ∧ r.id = id
  others : ∀ a, a.space ≠ cfg.space → m'.store.content.get? a = m.store.content.get? a
  loaded : ∀ kind, (report.loaded.get? kind).getD 0 =
    (lines.filterMap (Line.resource? cfg.space)).countP fun r => r.kind = kind
  skipped : report.skippedLines = lines.countP (Line.isSkipped cfg.space)
  cursor : m'.cursors.cursors.get? cfg.owner =
    some ⟨cfg.consumer, cfg.context, offset, offset, url⟩

variable {remote : Remote} {url : String} {offset : Nat} {m m' : Replica} {report : Report}
  {files : List SourceFile}

theorem space_eq_of_mem {r : Resource} (h : r ∈ lines.filterMap (Line.resource? space)) :
    r.space = space := by
  obtain ⟨line, -, hline⟩ := List.mem_filterMap.mp h
  exact (Line.resource?_eq_some_iff.mp hline).space_eq

theorem get?_of_install (h : install cfg url offset files m = .ok report m') (kind : Kind)
    (id : String) : m'.store.content.get? ⟨kind, cfg.space, id⟩ =
      (((recordFiles files).flatMap linesOf).filterMap (Line.resource? cfg.space)).reverse.find?
        fun r => r.kind = kind ∧ r.id = id := by
  obtain ⟨c, l, hloaded, -, hworld⟩ :=
    (ensures_install_exact (w := m.world) url offset files).of_ok rfl h
  have hcontent : m'.store.content = c := congrArg World.content hworld
  rw [hcontent, hloaded.content, Content.get?_fileAll, Content.get?_withoutSpace, if_pos rfl,
    Option.or_none]
  refine List.find?_congr fun r hr => ?_
  simp [Resource.address, space_eq_of_mem (List.mem_reverse.mp hr)]

theorem replacement_of_install (howned : m.cursors.Owned cfg.owner)
    (h : install cfg url offset files m = .ok report m') :
    Replacement cfg url offset ((recordFiles files).flatMap linesOf) m report m' := by
  obtain ⟨c, l, hloaded, rfl, hworld⟩ :=
    (ensures_install_exact (w := m.world) url offset files).of_ok rfl h
  have hcontent : m'.store.content = c := congrArg World.content hworld
  have hput : m'.cursors.cursors = m.cursors.cursors.put { m.cursors.current cfg.owner with
      localOffset := offset
      remoteOffset := offset
      snapshotLink := url } := congrArg (fun w => w.cursors.cursors) hworld
  have howner : (m.cursors.current cfg.owner).owner = cfg.owner := howned.owner_current
  refine ⟨get?_of_install h, fun a ha => ?_, fun kind => ?_, hloaded.skipped, ?_⟩
  · have hnone : (((recordFiles files).flatMap linesOf).filterMap
        (Line.resource? cfg.space)).reverse.find? (fun r => r.address = a) = none := by
      refine List.find?_eq_none.mpr fun r hr haddress => ha ?_
      rw [← of_decide_eq_true haddress]
      exact space_eq_of_mem (List.mem_reverse.mp hr)
    rw [hcontent, hloaded.content, Content.get?_fileAll, Content.get?_withoutSpace, if_neg ha,
      hnone]
    rfl
  · rw [hloaded.loaded, get?_counted]
    split
    · rename_i hzero
      rw [hzero]
      rfl
    · exact Nat.zero_add _
  · have hcontext : (m.cursors.current cfg.owner).context = cfg.context :=
      congrArg Consumer.context howner
    have hname : (m.cursors.current cfg.owner).name = cfg.consumer :=
      congrArg Consumer.name howner
    rw [CursorStore.get?_of_put hput howner]
    simp only [hcontext, hname]

/-- A snapshot that loads replaces the space by what its lines say last, taken file by file in the
order of the paths. Neither the content before nor the size of the batches shows in the space. -/
theorem bootstrap_replaces (hurl : Text.isBlankText url = false)
    (howned : m.cursors.Owned cfg.owner)
    (hpaths : ∀ files mid, fetch cfg remote url m = .ok files mid →
      (files.map SourceFile.path).Nodup)
    (h : bootstrap cfg remote url offset m = .ok report m') :
    ∃ files mid, fetch cfg remote url m = .ok files mid ∧
      (∃ ordered : List SourceFile,
        ordered.Perm (files.filter fun f => f.path.extension? == some "json") ∧
        ordered.Pairwise (fun a b => compare a.path b.path = .lt) ∧
        Replacement cfg url offset (ordered.flatMap linesOf) m report m') ∧
      ∀ (cfg' : Config) (remote' : Remote) (url' : String) (offset' : Nat) (n mid' n' : Replica)
        (report' : Report), cfg'.space = cfg.space → Text.isBlankText url' = false →
        fetch cfg' remote' url' n = .ok files mid' →
        bootstrap cfg' remote' url' offset' n = .ok report' n' →
        ∀ a, a.space = cfg.space → n'.store.content.get? a = m'.store.content.get? a := by
  obtain ⟨files, mid, hfetch, hinstall⟩ := exists_install_of_bootstrap hurl h
  have hworld : mid.world = m.world := ((ensures_fetch remote url).of_ok rfl hfetch).2
  refine ⟨files, mid, hfetch, ⟨recordFiles files, perm_recordFiles files,
    ascending_recordFiles (hpaths files mid hfetch), ?_⟩, ?_⟩
  · have hcursors : mid.cursors = m.cursors := congrArg World.cursors hworld
    have hcontent : mid.store.content = m.store.content := congrArg World.content hworld
    have hreplacement := replacement_of_install (hcursors ▸ howned) hinstall
    exact { hreplacement with others := fun a ha => hcontent ▸ hreplacement.others a ha }
  · rintro cfg' remote' url' offset' n mid' n' report' hspace hurl' hfetch' h' ⟨kind, space, id⟩ rfl
    obtain ⟨files', mid'', hfetch'', hinstall'⟩ := exists_install_of_bootstrap hurl' h'
    cases hfetch'.symm.trans hfetch''
    rw [get?_of_install hinstall kind id, ← hspace]
    exact get?_of_install hinstall' kind id

section Trial

def stale : Content :=
  Content.file .empty ⟨.rule, .object [("id", .string "s")], .standard, none, ""⟩

def ruleRecord (document : List (String × Json)) : String :=
  (Json.object [("payload", .object [("type", .string "rule"),
    ("document", .object document)])]).compact

/-- After the rule come a blank line and one without a resource. -/
def firstText : String :=
  ruleRecord [("id", .string "r")] ++ "\n\n" ++ (Json.object []).compact

def secondText : String := ruleRecord [("id", .string "r"), ("n", .ofNat 2)]

def firstFile : SourceFile := ⟨["a.json"], firstText.toUTF8⟩

def secondFile : SourceFile := ⟨["b.json"], secondText.toUTF8⟩

/-- The second file comes first in the archive. -/
def revising : Remote where
  consumer := .error (.unreachable "")
  changes _ _ := ⟨.ok [], false⟩
  snapshot _ := .ok ⟨Archive.pairArchive "b.json" secondText "a.json" firstText, 0⟩

def gathering : Config := Sync.trialConfig.withBatchSize 1

def isRevised (report : Report) (m : Replica) : Bool :=
  let c := m.store.content
  (c.get? ⟨.rule, .standard, "s"⟩).isNone &&
    ((c.get? ⟨.rule, .standard, "r"⟩).bind (·.document.field? "n")).isSome && report.skippedLines == 1

theorem eq_of_bytes {files files' : List SourceFile}
    (h : (files.map fun f => (f.path, f.content.data.toList)) =
      files'.map fun f => (f.path, f.content.data.toList)) : files = files' := by
  refine List.map_injective_iff.mpr ?_ h
  rintro ⟨path, ⟨⟨bytes⟩⟩⟩ ⟨path', ⟨⟨bytes'⟩⟩⟩ heq
  cases heq
  rfl

set_option maxRecDepth 20000 in
theorem unpack_revising : unpack (Archive.pairArchive "b.json" secondText "a.json" firstText) false =
    .ok [secondFile, firstFile] := by
  have hfiles : (match unpack (Archive.pairArchive "b.json" secondText "a.json" firstText) false with
      | .ok files => (files.map fun f => (f.path, f.content.data.toList)) ==
          [secondFile, firstFile].map fun f => (f.path, f.content.data.toList)
      | .error _ => false) = true := by
    decide +kernel
  cases hunpack : unpack (Archive.pairArchive "b.json" secondText "a.json" firstText) false with
  | error e =>
    rw [hunpack] at hfiles
    cases hfiles
  | ok files =>
    rw [hunpack] at hfiles
    rw [eq_of_bytes (beq_iff_eq.mp hfiles)]

theorem fetch_revising (m : Replica) : fetch gathering revising "u" m =
    .ok [secondFile, firstFile] { m with requests := m.requests ++ [.snapshot "u"] } := by
  have hdownload : revising.snapshot "u" =
      .ok ⟨Archive.pairArchive "b.json" secondText "a.json" firstText, 0⟩ := rfl
  exact fetch_of_unpack rfl hdownload unpack_revising m

theorem ascending_files :
    [firstFile, secondFile].Pairwise fun a b => compare a.path b.path = .lt := by
  decide +kernel

theorem eq_of_perm_files {ordered : List SourceFile} (hperm : ordered.Perm
      ([secondFile, firstFile].filter fun f => f.path.extension? == some "json"))
    (hascending : ordered.Pairwise fun a b => compare a.path b.path = .lt) :
    ordered = [firstFile, secondFile] := by
  have hjson : ∀ f ∈ [secondFile, firstFile], f.path.extension? == some "json" := by
    decide +kernel
  rw [List.filter_eq_self.mpr hjson] at hperm
  exact eq_of_ascending (hperm.trans (.swap ..)) hascending ascending_files

/-- The stale rule is gone, and the rule in both files is that of the second. -/
theorem stale_replaced :
    ∃ report m', bootstrap gathering revising "u" 7 (.of stale .empty) = .ok report m' ∧
      Replacement gathering "u" 7 ([firstFile, secondFile].flatMap linesOf) (.of stale .empty)
        report m' ∧
      isRevised report m' := by
  have hinstall : returned isRevised (install gathering "u" 7 [secondFile, firstFile]
      { Replica.of stale .empty with requests := [.snapshot "u"] }) = true := by
    have hrecords : recordFiles [secondFile, firstFile] = [firstFile, secondFile] :=
      eq_of_perm_files (perm_recordFiles _) (ascending_recordFiles (by decide))
    unfold install
    rw [hrecords]
    decide +kernel
  obtain ⟨report, m', h, hrevised⟩ := eq_ok_of_returned hinstall
  have hurl : Text.isBlankText "u" = false := by decide +kernel
  have hbootstrap : bootstrap gathering revising "u" 7 (.of stale .empty) = .ok report m' :=
    bootstrap_of_install hurl rfl (fetch_revising _) h
  have howned : (Replica.of stale .empty).cursors.Owned gathering.owner := by
    intro cursor hcursor
    cases hcursor
  have hfetched (files : List SourceFile) (mid : Replica)
      (h : fetch gathering revising "u" (.of stale .empty) = .ok files mid) :
      files = [secondFile, firstFile] := by
    rw [fetch_revising] at h
    cases h
    rfl
  obtain ⟨files, mid, hfetch, ⟨ordered, hperm, hascending, hreplacement⟩, -⟩ :=
    bootstrap_replaces hurl howned
      (fun files mid h => by rw [hfetched files mid h]; decide) hbootstrap
  rw [hfetched files mid hfetch] at hperm
  rw [eq_of_perm_files hperm hascending] at hreplacement
  exact ⟨report, m', hbootstrap, hreplacement, hrevised⟩

end Trial

end Snapshot

end ContentSpaces
