import ContentSpaces.Proofs.Archive.Extraction
import ContentSpaces.Sync.Snapshot
import Mathlib.Data.List.Nodup
import Mathlib.Logic.Function.Basic

/-!
# Entries that share a path

Different names may lead to one path. Each file entry is written to its path, and its path is listed,
also if an earlier entry was written there; then the bytes of the later entry stand. So an extraction
gives back what the entries hold exactly if no two of them share a path.
-/

namespace ContentSpaces.Files

variable {files made : Files} {path q : List String}

theorem content?_insert_file (files : Files) (path : List String) (content : ByteArray) :
    content? (files.insert path (.file content)) =
      Function.update files.content? path (some content) := by
  funext q
  rw [Function.update_apply, content?, Table.get?_insert]
  by_cases hq : q = path
  · simp [hq]
  · simp [hq, content?]

/-- A directory is made where nothing was, so no file changes. -/
theorem content?_insert_directory (h : files.get? path = none) :
    content? (files.insert path .directory) = files.content? := by
  funext q
  rw [content?, content?, Table.get?_insert]
  by_cases hq : q = path
  · simp [hq, h]
  · simp [hq]

theorem content?_makeFrom (made : List String) (files : Files) (path : List String) :
    (files.makeFrom made path).1.content? = files.content? := by
  induction path generalizing made files with
  | nil => rfl
  | cons part path ih =>
    unfold makeFrom
    extract_lets here
    split
    · exact ih here files
    · rfl
    · rename_i hnone
      split
      · exact (ih here _).trans (content?_insert_directory hnone)
      · rfl

theorem content?_makeDirectory (files : Files) (path : List String) :
    (files.makeDirectory path).1.content? = files.content? := by
  unfold makeDirectory
  split
  · exact content?_makeFrom [] files path
  · rfl

theorem eq_insert_of_makeFile (h : files.makeFile path = (made, true)) :
    made = files.insert path (.file .empty) := by
  unfold makeFile at h
  grind

end ContentSpaces.Files

namespace ContentSpaces.Archive

open EntryPath

variable {data : ByteArray} {entries : List Entry} {expired : Bool} {written : List EntryPath}
  {s s' : Option Files} {view : EntryPath → Option ByteArray} {goals : List (Entry × EntryPath)}

/-- An entry with the path that it goes to, unless its name is the destination itself. -/
def goal? (e : Entry) : Option (Entry × EntryPath) :=
  ((ofName? e.name).filter (· ≠ [])).map fun path => (e, path)

def isFile (goal : Entry × EntryPath) : Bool := !isDirectoryName goal.1.name

def fileGoals (entries : List Entry) : List (Entry × EntryPath) :=
  (entries.filterMap goal?).filter isFile

/-- What stands at each path after files have been written one after the other. -/
def overlay (data : ByteArray) (view : EntryPath → Option ByteArray)
    (goals : List (Entry × EntryPath)) : EntryPath → Option ByteArray :=
  goals.foldl (fun view goal => Function.update view goal.2 (goal.1.content? data)) view

/-- The destination has been made, and its files are the ones in view. -/
def Shows (view : EntryPath → Option ByteArray) (s : Option Files) : Prop :=
  ∃ files, s = some files ∧ files.content? = view

section Writes

theorem ensures_making {V : EntryPath → Option ByteArray} {step : Files → Files × Bool}
    (h : ∀ files, files.content? = view → (step files).2 = true → (step files).1.content? = V) :
    Ensures (Shows view) (making step) (fun _ => Shows V) fun _ _ => True := by
  rintro _ ⟨files, rfl, hfiles⟩
  rw [making_apply]
  cases hok : (step files).2 with
  | true =>
    have hstep := h files hfiles hok
    simpa only [Option.getD_some, hok, if_true] using ⟨_, rfl, hstep⟩
  | false => simp [hok]

theorem ensures_makeDirectory (path : EntryPath) :
    Ensures (Shows view) (making (·.makeDirectory path)) (fun _ => Shows view) fun _ _ => True :=
  ensures_making fun files hfiles _ => (files.content?_makeDirectory path).trans hfiles

theorem ensures_write_directory {e : Entry} (hname : isDirectoryName e.name) (path : EntryPath) :
    Ensures (Shows view) (write data e path) (fun made s => made = none ∧ Shows view s)
      fun _ _ => True := by
  unfold write
  rw [if_pos hname]
  exact (ensures_makeDirectory path).bind fun _ => .pure fun _ hs => ⟨rfl, hs⟩

theorem ensures_write_file {e : Entry} (hname : ¬ isDirectoryName e.name) (path : EntryPath) :
    Ensures (Shows view) (write data e path)
      (fun made s => (made = some path ∧ (e.content? data).isSome) ∧
        Shows (Function.update view path (e.content? data)) s)
      fun _ _ => True := by
  unfold write
  rw [if_neg hname]
  refine (ensures_makeDirectory path.dropLast).bind fun _ => ?_
  refine (ensures_making (V := Function.update view path (some .empty)) ?_).bind fun _ => ?_
  · intro files hfiles hok
    have hmade : (files.makeFile path).1 = files.insert path (.file .empty) :=
      Files.eq_insert_of_makeFile (Prod.ext rfl hok)
    rw [hmade, Files.content?_insert_file, hfiles]
  · split
    · exact .throw fun _ _ => trivial
    · rename_i content hcontent
      rw [hcontent]
      refine (ensures_making (V := Function.update view path (some content)) ?_).bind fun _ =>
        .pure fun _ hs => ⟨⟨rfl, rfl⟩, hs⟩
      intro files hfiles _
      rw [Files.content?_insert_file, hfiles, Function.update_idem]

/-- The files are written in turn and listed in turn. -/
theorem ensures_writes (data : ByteArray) (goals : List (Entry × EntryPath))
    (view : EntryPath → Option ByteArray) :
    Ensures (Shows view) (goals.mapM fun (e, path) => write data e path)
      (fun made s => (made.filterMap id = (goals.filter isFile).map Prod.snd ∧
          ∀ goal ∈ goals.filter isFile, (goal.1.content? data).isSome) ∧
        Shows (overlay data view (goals.filter isFile)) s)
      fun _ _ => True := by
  induction goals generalizing view with
  | nil => exact .mapM_nil fun _ hs => ⟨⟨rfl, List.forall_mem_nil _⟩, hs⟩
  | cons goal goals ih =>
    by_cases hname : isDirectoryName goal.1.name
    · have hfile : ¬ isFile goal = true := by simpa [isFile] using hname
      rw [List.filter_cons_of_neg hfile]
      refine .mapM_cons (ensures_write_directory hname goal.2) fun made => .of_and ?_
      rintro rfl
      exact ih view
    · have hfile : isFile goal = true := by simpa [isFile] using hname
      rw [List.filter_cons_of_pos hfile]
      refine .mapM_cons (ensures_write_file hname goal.2) fun made => .of_and ?_
      rintro ⟨rfl, hcontent⟩
      refine (ih _).mono_ok ?_
      rintro made s ⟨⟨hmade, hcontents⟩, hs⟩
      refine ⟨⟨?_, List.forall_mem_cons.mpr ⟨hcontent, hcontents⟩⟩, hs⟩
      simpa using hmade

theorem ensures_target_eq (data : ByteArray) (e : Entry) (s : Option Files) :
    Ensures (· = s) (target data e)
      (fun path s' => path = (ofName? e.name).filter (· ≠ []) ∧ s' = s) fun _ _ => True := by
  rintro s rfl
  rw [target_apply]
  by_cases hreadable : e.isReadable data
  · rw [if_pos hreadable]
    cases ofName? e.name with
    | none => trivial
    | some path => cases path <;> exact ⟨rfl, rfl⟩
  · rw [if_neg hreadable]
    trivial

theorem ensures_targets_eq (data : ByteArray) (entries : List Entry) (s : Option Files) :
    Ensures (· = s) (targets data entries) (fun goals s' => goals = entries.map goal? ∧ s' = s)
      fun _ _ => True := by
  induction entries with
  | nil => exact .mapM_nil fun _ hs => ⟨rfl, hs⟩
  | cons e entries ih =>
    refine .mapM_cons (R := fun goal s' => goal = goal? e ∧ s' = s) ?_ fun goal => .of_and ?_
    · refine (ensures_target_eq data e s).bind fun path => .of_and ?_
      rintro rfl
      exact .pure fun _ hs => ⟨rfl, hs⟩
    · rintro rfl
      refine ih.mono_ok ?_
      rintro _ _ ⟨rfl, hs⟩
      exact ⟨rfl, hs⟩

/-- What an extraction that succeeds lists, and what it leaves at each path. -/
theorem ensures_extract_shows (hread : Directory.read? data = some entries) (expired : Bool)
    (s : Option Files) :
    Ensures (· = s) (extract data expired)
      (fun written s' => (written = (fileGoals entries).map Prod.snd ∧
          ∀ goal ∈ fileGoals entries, (goal.1.content? data).isSome) ∧
        Shows (overlay data (fun _ => none) (fileGoals entries)) s')
      fun _ _ => True := by
  rw [extract_eq hread]
  refine (ensures_targets_eq data entries s).bind fun goals => .of_and ?_
  rintro rfl
  have hgoals : (entries.map goal?).filterMap id = entries.filterMap goal? := by
    rw [List.filterMap_map]
    rfl
  rw [hgoals]
  cases expired with
  | true => exact .throw_bind fun _ _ => trivial
  | false =>
    refine Ensures.bind (R := fun _ => Shows fun _ => none) (fun _ _ => ⟨.empty, rfl, rfl⟩)
      fun _ => ?_
    exact (ensures_writes data _ _).bind fun made => .of_and fun hmade =>
      .pure fun _ hs => ⟨hmade, hs⟩

end Writes

section Names

theorem names_put (e : Entry) (entries : List Entry) :
    (Directory.put e entries).map Entry.name =
      if e.name ∈ entries.map Entry.name then entries.map Entry.name
      else entries.map Entry.name ++ [e.name] := by
  induction entries with
  | nil => rfl
  | cons first entries ih =>
    rw [Directory.put]
    by_cases hname : first.name = e.name
    · simp [hname]
    · rw [if_neg hname, List.map_cons, ih]
      simp only [List.map_cons, List.mem_cons, Ne.symm hname, false_or]
      split <;> rfl

theorem nodup_names_put (h : (entries.map Entry.name).Nodup) (e : Entry) :
    ((Directory.put e entries).map Entry.name).Nodup := by
  rw [names_put]
  split
  · exact h
  · rename_i hnew
    rw [← List.concat_eq_append]
    exact List.Nodup.concat hnew h

/-- The entries that a directory gives have different names. -/
theorem nodup_names_of_read? (h : Directory.read? data = some entries) :
    (entries.map Entry.name).Nodup := by
  have hfold (headers entries : List Entry) (hentries : (entries.map Entry.name).Nodup) :
      ((headers.foldl (fun es e => Directory.put e es) entries).map Entry.name).Nodup := by
    induction headers generalizing entries with
    | nil => exact hentries
    | cons e headers ih => exact ih _ (nodup_names_put hentries e)
  have hrecord {record : EndRecord} (hread : Directory.ofRecord? data record = some entries) :
      (entries.map Entry.name).Nodup := by
    unfold Directory.ofRecord? at hread
    simp only [Option.bind_eq_bind, Option.bind_eq_some_iff, Option.some.injEq] at hread
    obtain ⟨place, -, headers, -, rfl⟩ := hread
    exact hfold headers [] .nil
  unfold Directory.read? at h
  generalize data.size - 3 = offset at h
  induction offset with
  | zero => cases h
  | succ offset ih =>
    rw [Directory.findLast?] at h
    cases hlast : (EndRecord.read? data offset).bind (Directory.ofRecord? data) with
    | some found =>
      obtain ⟨record, -, hread⟩ := Option.bind_eq_some_iff.mp hlast
      rw [hlast] at h
      exact hrecord (hread.trans h)
    | none =>
      rw [hlast] at h
      exact ih h

end Names

section Outcome

/-- What an earlier goal has left is overwritten by a later one with its path only. -/
theorem overlay_of_not_mem {path : EntryPath} (h : path ∉ goals.map Prod.snd)
    (view : EntryPath → Option ByteArray) : overlay data view goals path = view path := by
  induction goals generalizing view with
  | nil => rfl
  | cons goal goals ih =>
    rw [List.map_cons, List.mem_cons, not_or] at h
    exact (ih h.2 _).trans (Function.update_of_ne h.1 _ _)

theorem overlay_append (view : EntryPath → Option ByteArray)
    (before after : List (Entry × EntryPath)) :
    overlay data view (before ++ after) = overlay data (overlay data view before) after :=
  List.foldl_append

/-- Of the goals with one path the last one stands. -/
theorem overlay_eq_content {before after : List (Entry × EntryPath)} {goal : Entry × EntryPath}
    (hlast : goal.2 ∉ after.map Prod.snd) (view : EntryPath → Option ByteArray) :
    overlay data view (before ++ goal :: after) goal.2 = goal.1.content? data := by
  rw [overlay_append]
  exact (overlay_of_not_mem hlast _).trans (Function.update_self ..)

theorem overlay_eq_content_of_nodup (h : (goals.map Prod.snd).Nodup)
    (view : EntryPath → Option ByteArray) :
    ∀ goal ∈ goals, overlay data view goals goal.2 = goal.1.content? data := by
  intro goal hgoal
  obtain ⟨before, after, rfl⟩ := List.append_of_mem hgoal
  refine overlay_eq_content ?_ view
  rw [List.map_append, List.map_cons] at h
  exact (List.nodup_cons.mp (List.nodup_append.mp h).2.1).1

def source? (data : ByteArray) (goal : Entry × EntryPath) : Option Snapshot.SourceFile :=
  (goal.1.content? data).map fun content => ⟨goal.2, content⟩

def recordLines (data : ByteArray) (entries : List Entry) : List Snapshot.Line :=
  (((fileGoals entries).filterMap (source? data)).filter
    fun f => f.path.extension? == some "json").flatMap Snapshot.linesOf

/-- Each path is listed once, each file holds the bytes of its entry, and the lines of each entry
that holds records are read once. -/
structure Faithful (data : ByteArray) (entries : List Entry) (written : List EntryPath)
    (files : Files) (sources : List Snapshot.SourceFile) : Prop where
  once : written.Nodup
  own : ∀ goal ∈ fileGoals entries, files.content? goal.2 = goal.1.content? data
  read : ((Snapshot.recordFiles sources).flatMap Snapshot.linesOf).Perm (recordLines data entries)

theorem unpack_eq {files : Files} (h : extract data expired none = .ok written (some files)) :
    Snapshot.unpack data expired = .ok (written.filterMap fun path =>
      (files.content? path).map fun content => ⟨path, content⟩) := by
  rw [Snapshot.unpack, h]
  rfl

/-- An extraction lists the path of every file entry in turn, and of the entries with one path the
last one stands. It is faithful to the archive exactly if no two file entries share a path. -/
theorem extract_faithful_iff (hread : Directory.read? data = some entries)
    (hextract : extract data expired none = .ok written s') :
    (entries.map Entry.name).Nodup ∧ written = (fileGoals entries).map Prod.snd ∧
    ∃ files sources, s' = some files ∧ Snapshot.unpack data expired = .ok sources ∧
      (∀ before goal after, fileGoals entries = before ++ goal :: after →
        (goal.1.content? data).isSome ∧
        (goal.2 ∉ after.map Prod.snd → files.content? goal.2 = goal.1.content? data)) ∧
      (Faithful data entries written files sources ↔ ((fileGoals entries).map Prod.snd).Nodup) := by
  obtain ⟨⟨hwritten, hcontents⟩, files, rfl, hfiles⟩ :=
    (ensures_extract_shows hread expired none).of_ok rfl hextract
  refine ⟨nodup_names_of_read? hread, hwritten, files, _, rfl, unpack_eq hextract, ?_, ?_⟩
  · intro before goal after hgoals
    refine ⟨hcontents goal (by rw [hgoals]; simp), fun hlast => ?_⟩
    rw [hfiles, hgoals]
    exact overlay_eq_content hlast _
  · constructor
    · intro hfaithful
      rw [← hwritten]
      exact hfaithful.once
    · intro hdistinct
      have hown : ∀ goal ∈ fileGoals entries, files.content? goal.2 = goal.1.content? data := by
        rw [hfiles]
        exact overlay_eq_content_of_nodup hdistinct _
      refine ⟨hwritten ▸ hdistinct, hown, ?_⟩
      have hsources : (written.filterMap fun path => (files.content? path).map fun content =>
          (⟨path, content⟩ : Snapshot.SourceFile)) =
            (fileGoals entries).filterMap (source? data) := by
        rw [hwritten, List.filterMap_map]
        refine List.filterMap_congr fun goal hgoal => ?_
        rw [Function.comp_apply, hown goal hgoal, source?]
      rw [hsources]
      exact (List.mergeSort_perm _ _).flatMap_right _

end Outcome

section Trial

def numeral (size n : Nat) : List UInt8 :=
  (List.range size).map fun i => (n >>> (8 * i)).toUInt8

def told (name content : String) : List UInt8 :=
  [20, 0, 0, 0, 0, 0, 0, 0, 0, 0] ++ numeral 4 (Crc32.ofBytes content.toUTF8).toNat ++
    numeral 4 content.utf8ByteSize ++ numeral 4 content.utf8ByteSize ++
    numeral 2 name.utf8ByteSize ++ [0, 0]

def localHeader (name content : String) : List UInt8 :=
  [0x50, 0x4b, 3, 4] ++ told name content ++ name.toUTF8.data.toList ++ content.toUTF8.data.toList

def directoryHeader (offset : Nat) (name content : String) : List UInt8 :=
  [0x50, 0x4b, 1, 2, 20, 0] ++ told name content ++ [0, 0, 0, 0, 0, 0, 0, 0, 0, 0] ++
    numeral 4 offset ++ name.toUTF8.data.toList

def pairArchive (name content name' content' : String) : ByteArray :=
  let first := localHeader name content
  let files := first ++ localHeader name' content'
  let directory :=
    directoryHeader 0 name content ++ directoryHeader first.length name' content'
  ⟨⟨files ++ directory ++ [0x50, 0x4b, 5, 6, 0, 0, 0, 0, 2, 0, 2, 0] ++
    numeral 4 directory.length ++ numeral 4 files.length ++ [0, 0]⟩⟩

def neighbours : ByteArray := pairArchive "a.json" "1" "b\\..\\c.json" "2"

/-- The two files have paths of their own, so all of the archive is given back. -/
theorem neighbours_faithful : ∃ entries written files sources,
    Directory.read? neighbours = some entries ∧
    extract neighbours false none = .ok written (some files) ∧
    Snapshot.unpack neighbours false = .ok sources ∧
    Faithful neighbours entries written files sources := by
  have hchecked : (Directory.read? neighbours).any (fun entries =>
      decide ((fileGoals entries).map Prod.snd).Nodup) = true ∧
      returned (fun _ _ => true) (extract neighbours false none) = true := by
    decide +kernel
  obtain ⟨entries, hread, hdistinct⟩ := (Option.any_eq_true _ _).mp hchecked.1
  obtain ⟨written, s', hextract, -⟩ := eq_ok_of_returned hchecked.2
  obtain ⟨-, -, files, sources, rfl, hunpack, -, hiff⟩ := extract_faithful_iff hread hextract
  exact ⟨entries, written, files, sources, hread, hextract, hunpack,
    hiff.mpr (of_decide_eq_true hdistinct)⟩

def twins : ByteArray := pairArchive "a.json" "1" "./a.json" "2"

/-- Both entries are safe and readable, and their file is listed twice. -/
theorem twins_not_faithful : ∃ entries files sources,
    Directory.read? twins = some entries ∧ entries.map Entry.name = ["a.json", "./a.json"] ∧
    (∀ e ∈ entries, e.isReadable twins) ∧ refused? entries = none ∧
    extract twins false none = .ok [["a.json"], ["a.json"]] (some files) ∧
    Snapshot.unpack twins false = .ok sources ∧
    ¬ Faithful twins entries [["a.json"], ["a.json"]] files sources := by
  have hchecked : (Directory.read? twins).any (fun entries =>
      decide (entries.map Entry.name = ["a.json", "./a.json"]) &&
        (entries.all (·.isReadable twins) && (refused? entries).isNone)) = true ∧
      returned (fun written s => decide (written = [["a.json"], ["a.json"]]) && s.isSome)
        (extract twins false none) = true := by
    decide +kernel
  obtain ⟨entries, hread, hentries⟩ := (Option.any_eq_true _ _).mp hchecked.1
  obtain ⟨hnames, hentries⟩ := Bool.and_eq_true_iff.mp hentries
  obtain ⟨hreadable, hsafe⟩ := Bool.and_eq_true_iff.mp hentries
  obtain ⟨written, s, hextract, hs⟩ := eq_ok_of_returned hchecked.2
  obtain ⟨hwritten, hmade⟩ := Bool.and_eq_true_iff.mp hs
  obtain rfl := of_decide_eq_true hwritten
  obtain ⟨files, rfl⟩ := Option.isSome_iff_exists.mp hmade
  refine ⟨entries, files, _, hread, of_decide_eq_true hnames, List.all_eq_true.mp hreadable,
    Option.isNone_iff_eq_none.mp hsafe, hextract, unpack_eq hextract, fun hfaithful => ?_⟩
  exact absurd hfaithful.once (by decide)

end Trial

end ContentSpaces.Archive
