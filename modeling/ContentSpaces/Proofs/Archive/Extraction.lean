import ContentSpaces.Archive
import ContentSpaces.Proofs.Archive.EntryPath
import ContentSpaces.Proofs.Computation

/-!
# Extraction stays inside the destination

The names of all entries are looked at before anything is made, so an archive with a refused name
changes nothing, and the error is about the first such name. Otherwise every directory and file is
made at a path that leads down from the destination, also if the extraction fails on its way.
-/

namespace ContentSpaces.Files

variable {files : Files} {P : List String → Prop} {path made : List String}

/-- Whatever is listed is listed at a path with `P`. -/
def Within (P : List String → Prop) (files : Files) : Prop :=
  ∀ path, files.get? path ≠ none → P path

theorem Within.empty : Within P .empty := fun _ h => absurd rfl h

theorem Within.insert (h : Within P files) (hpath : P path) (node : Node) :
    Within P (files.insert path node) := by
  intro q hq
  rw [Table.get?_insert] at hq
  split at hq
  · rename_i hsame
    exact hsame ▸ hpath
  · exact h q hq

/-- Directories are made at the first parts of the path only. -/
theorem Within.makeFrom (h : Within P files)
    (hpath : ∀ first, first <+: path → first ≠ [] → P (made ++ first)) :
    Within P (files.makeFrom made path).1 := by
  induction path generalizing made files with
  | nil => exact h
  | cons part path ih =>
    have hhere : P (made ++ [part]) := hpath [part] (by simp) (List.cons_ne_nil _ _)
    have hnext : ∀ first, first <+: path → first ≠ [] → P (made ++ [part] ++ first) := by
      intro first hfirst _
      rw [List.append_assoc, List.singleton_append]
      exact hpath (part :: first) (by simpa using hfirst) (List.cons_ne_nil _ _)
    unfold Files.makeFrom
    extract_lets here
    split
    · exact ih h hnext
    · exact h
    · split
      · exact ih (h.insert hhere .directory) hnext
      · exact h

theorem Within.makeDirectory (h : Within P files)
    (hpath : ∀ first, first <+: path → first ≠ [] → P first) :
    Within P (files.makeDirectory path).1 := by
  unfold Files.makeDirectory
  split
  · exact h.makeFrom (by simpa using hpath)
  · exact h

theorem Within.makeFile (h : Within P files) (hpath : P path) :
    Within P (files.makeFile path).1 := by
  unfold Files.makeFile
  split
  · exact h
  · exact h.insert hpath _
  · split
    · exact h.insert hpath _
    · exact h

end ContentSpaces.Files

namespace ContentSpaces.Archive

open EntryPath

variable {data : ByteArray} {entries : List Entry} {e : Entry} {s : Option Files}
  {path : EntryPath} {expired : Bool}

/-- The first entry whose name is refused. -/
def refused? (entries : List Entry) : Option Entry :=
  entries.find? fun e => (ofName? e.name).isNone

section Targets

/-- Looking at an entry changes nothing. -/
theorem target_apply (data : ByteArray) (e : Entry) (s : Option Files) :
    target data e s =
      if e.isReadable data then
        match ofName? e.name with
        | none => .error (.pathTraversal e.name) s
        | some [] => .ok none s
        | some path => .ok (some path) s
      else .error .archive s := by
  unfold target
  cases e.isReadable data with
  | false => rcases ofName? e.name with _ | _ | _ <;> rfl
  | true => rcases ofName? e.name with _ | _ | _ <;> rfl

theorem ensures_target (data : ByteArray) (e : Entry) (s : Option Files) :
    Ensures (· = s) (target data e)
      (fun goal s' => (ofName? e.name ≠ none ∧ ∀ path ∈ goal, LeadsDown path) ∧ s' = s)
      (fun error s' => (e.isReadable data → ofName? e.name = none ∧ error = .pathTraversal e.name) ∧
        s' = s) := by
  rintro s rfl
  rw [target_apply]
  by_cases hreadable : e.isReadable data
  · rw [if_pos hreadable]
    cases hname : ofName? e.name with
    | none => exact ⟨fun _ => ⟨rfl, rfl⟩, rfl⟩
    | some path =>
      cases path with
      | nil => exact ⟨⟨nofun, nofun⟩, rfl⟩
      | cons part path =>
        refine ⟨⟨nofun, ?_⟩, rfl⟩
        rintro _ ⟨⟩
        exact ⟨List.cons_ne_nil _ _, isPlain_of_ofName? hname⟩
  · rw [if_neg hreadable]
    exact ⟨fun h => absurd h hreadable, rfl⟩

def targets (data : ByteArray) (entries : List Entry) :
    ExtractM (List (Option (Entry × EntryPath))) :=
  entries.mapM fun e => do return (← target data e).map fun path => (e, path)

theorem refused?_cons_of_none (h : ofName? e.name = none) (entries : List Entry) :
    refused? (e :: entries) = some e := List.find?_cons_of_pos (by simp [h])

theorem refused?_cons_of_some (h : ofName? e.name ≠ none) (entries : List Entry) :
    refused? (e :: entries) = refused? entries := List.find?_cons_of_neg (by simpa using h)

/-- All entries are looked at only if no name is refused. -/
theorem ensures_targets (data : ByteArray) (entries : List Entry) (s : Option Files) :
    Ensures (· = s) (targets data entries)
      (fun goals s' => (refused? entries = none ∧ ∀ goal ∈ goals, ∀ g ∈ goal, LeadsDown g.2) ∧
        s' = s)
      (fun error s' => ((∀ e ∈ entries, e.isReadable data) →
        ∃ e, refused? entries = some e ∧ error = .pathTraversal e.name) ∧ s' = s) := by
  induction entries with
  | nil => exact .mapM_nil fun _ hs => ⟨⟨rfl, List.forall_mem_nil _⟩, hs⟩
  | cons e entries ih =>
    refine .mapM_cons (R := fun goal s' => (ofName? e.name ≠ none ∧
      ∀ g ∈ goal, LeadsDown g.2) ∧ s' = s) ?_ fun goal => .of_and fun hgoal => ?_
    · refine ((ensures_target data e s).mono_error ?_).bind fun goal => .pure ?_
      · rintro error s' ⟨herror, hs⟩
        refine ⟨fun hreadable => ?_, hs⟩
        obtain ⟨hnone, rfl⟩ := herror (hreadable e List.mem_cons_self)
        exact ⟨e, refused?_cons_of_none hnone entries, rfl⟩
      · rintro s' ⟨⟨hsome, hgoal⟩, hs⟩
        refine ⟨⟨hsome, fun g hg => ?_⟩, hs⟩
        obtain ⟨path, hpath, rfl⟩ := Option.map_eq_some_iff.mp hg
        exact hgoal path hpath
    · obtain ⟨hsome, hleads⟩ := hgoal
      rw [refused?_cons_of_some hsome]
      refine ih.mono (fun _ hs => hs) ?_ ?_
      · rintro goals s' ⟨⟨hnone, hgoals⟩, hs⟩
        exact ⟨⟨hnone, List.forall_mem_cons.mpr ⟨hleads, hgoals⟩⟩, hs⟩
      · rintro error s' ⟨herror, hs⟩
        exact ⟨fun hreadable => herror (List.forall_mem_cons.mp hreadable).2, hs⟩

end Targets

section Writes

/-- Nothing stands in the destination but at paths that lead down. -/
def Tidy (s : Option Files) : Prop := ∀ files, s = some files → files.Within LeadsDown

theorem tidy_some {files : Files} (h : files.Within LeadsDown) : Tidy (some files) := by
  rintro _ ⟨⟩
  exact h

theorem within_of_tidy (h : Tidy s) : (s.getD .empty).Within LeadsDown := by
  cases s with
  | none => exact .empty
  | some files => exact h files rfl

theorem making_apply (step : Files → Files × Bool) (s : Option Files) :
    making step s =
      if (step (s.getD .empty)).2 then .ok ⟨⟩ (some (step (s.getD .empty)).1)
      else .error .io (some (step (s.getD .empty)).1) := by
  have hcurrent : current s = .ok (s.getD .empty) s := rfl
  unfold making
  simp only [bind, EStateM.bind, hcurrent]
  rcases step (s.getD .empty) with ⟨files, _ | _⟩ <;> rfl

theorem keeps_making {step : Files → Files × Bool}
    (h : ∀ files : Files, files.Within LeadsDown → (step files).1.Within LeadsDown) :
    Keeps Tidy (making step) fun _ => True := by
  intro s hs
  have hstep := h _ (within_of_tidy hs)
  cases hok : (step (s.getD .empty)).2 with
  | true =>
    rw [making_apply, hok, if_pos rfl]
    exact ⟨trivial, tidy_some hstep⟩
  | false =>
    rw [making_apply, hok, if_neg Bool.false_ne_true]
    exact tidy_some hstep

theorem leadsDown_of_prefix (h : LeadsDown path) {first : EntryPath} (hfirst : first <+: path)
    (hne : first ≠ []) : LeadsDown first :=
  ⟨hne, fun part hpart => h.plain part (hfirst.subset hpart)⟩

theorem keeps_makeDirectory (h : LeadsDown path) {front : EntryPath} (hfront : front <+: path) :
    Keeps Tidy (making (·.makeDirectory front)) fun _ => True :=
  keeps_making fun _ hfiles => hfiles.makeDirectory fun _ hfirst =>
    leadsDown_of_prefix h (hfirst.trans hfront)

theorem keeps_write (data : ByteArray) (e : Entry) (h : LeadsDown path) :
    Keeps Tidy (write data e path) fun made => ∀ p ∈ made, LeadsDown p := by
  unfold write
  split
  · exact (keeps_makeDirectory h (List.prefix_refl path)).bind fun _ _ =>
      .pure fun p hp => absurd hp (Option.not_mem_none p)
  · refine (keeps_makeDirectory h (List.dropLast_prefix path)).bind fun _ _ => ?_
    refine (keeps_making fun _ hfiles => hfiles.makeFile h).bind fun _ _ => ?_
    split
    · exact .throw
    · refine (keeps_making fun _ hfiles => hfiles.insert h _).bind fun _ _ => .pure ?_
      rintro _ ⟨⟩
      exact h

end Writes

/-- Extraction looks at all names, then it starts on an empty destination. -/
theorem extract_eq (hread : Directory.read? data = some entries) :
    extract data expired = (do
      let goals ← targets data entries
      if expired then throw .timeout
      set (some Table.empty : Option Files)
      let written ← (goals.filterMap id).mapM fun (e, path) => write data e path
      return written.filterMap id) := by
  unfold extract
  rw [hread]
  rfl

/-- A refused name is found before anything is done. -/
theorem extract_of_refused (hread : Directory.read? data = some entries)
    (hrefused : refused? entries = some e) (expired : Bool) (s : Option Files) :
    ∃ error, extract data expired s = .error error s ∧
      ((∀ e ∈ entries, e.isReadable data) → error = .pathTraversal e.name) := by
  have hensures : Ensures (· = s) (extract data expired) (fun _ _ => False)
      (fun error s' => ((∀ e ∈ entries, e.isReadable data) → error = .pathTraversal e.name) ∧
        s' = s) := by
    rw [extract_eq hread]
    refine ((ensures_targets data entries s).mono_error ?_).bind fun goals => .of_and fun h => ?_
    · rintro error s' ⟨herror, hs⟩
      refine ⟨fun hreadable => ?_, hs⟩
      obtain ⟨first, hfirst, rfl⟩ := herror hreadable
      rw [Option.some.inj (hrefused.symm.trans hfirst)]
    · exact absurd (hrefused.symm.trans h.1) (Option.some_ne_none e)
  cases hextract : extract data expired s with
  | ok written s' => exact (hensures.of_ok rfl hextract).elim
  | error error s' =>
    obtain ⟨herror, rfl⟩ := hensures.of_error rfl hextract
    exact ⟨error, rfl, herror⟩

/-- What is written leads down; if the extraction fails, what it has made leads down too. -/
theorem ensures_extract (data : ByteArray) (expired : Bool) (s : Option Files) :
    Ensures (· = s) (extract data expired)
      (fun written s' => (∀ path ∈ written, LeadsDown path) ∧ Tidy s')
      (fun _ s' => s' = s ∨ Tidy s') := by
  cases hread : Directory.read? data with
  | none =>
    unfold extract
    rw [hread]
    exact .throw fun _ hs => .inl hs
  | some entries =>
    rw [extract_eq hread]
    refine ((ensures_targets data entries s).mono_error fun _ _ h => .inl h.2).bind fun goals =>
      .of_and fun hgoals => ?_
    have hwrites : Keeps Tidy ((goals.filterMap id).mapM fun (e, path) => write data e path)
        fun made => ∀ m ∈ made, ∀ p ∈ m, LeadsDown p := by
      refine .mapM fun goal hgoal => keeps_write data goal.1 ?_
      obtain ⟨_, hmem, rfl⟩ := List.mem_filterMap.mp hgoal
      exact hgoals.2 _ hmem goal rfl
    cases expired with
    | true => exact .throw_bind fun _ hs => .inl hs
    | false =>
      refine Ensures.bind (R := fun _ => Tidy) ?_ fun _ => ?_
      · exact fun _ _ => tidy_some .empty
      · refine (Ensures.mono_error hwrites fun _ _ h => .inr h).bind fun made =>
          .of_and fun hmade => .pure fun _ hs => ⟨?_, hs⟩
        intro path hpath
        obtain ⟨_, hmem, rfl⟩ := List.mem_filterMap.mp hpath
        exact hmade _ hmem path rfl

/-- A name is refused exactly if it is absolute or climbs out; else its path is the normal form of
its components, each of which a directory can hold, and extends every destination. An archive with
a refused name leaves everything as it is, and what is written elsewhere is below the destination. -/
theorem entries_stay_inside (destination name : String) (data : ByteArray) (expired : Bool)
    (s : Option Files) :
    (ofName? name = none ↔ IsAbsolute name ∨ Climbs (components name)) ∧
      (∀ path, ofName? name = some path ↔
        ¬ IsAbsolute name ∧ Normalizes (components name) path) ∧
      (∀ path, ofName? name = some path → (∀ part ∈ path, IsPlain part) ∧
        (path ≠ [] → Extends destination path (path.below destination))) ∧
      (∀ entries e, Directory.read? data = some entries → refused? entries = some e →
        ∃ error, extract data expired s = .error error s ∧
          ((∀ e ∈ entries, e.isReadable data) → error = .pathTraversal e.name)) ∧
      ∀ written s', extract data expired s = .ok written s' → ∀ path ∈ written,
        LeadsDown path ∧ Extends destination path (path.below destination) := by
  refine ⟨ofName?_eq_none_iff, fun path => ofName?_eq_some_iff, ?_, ?_, ?_⟩
  · intro path hpath
    have hplain := isPlain_of_ofName? hpath
    exact ⟨hplain, fun hne => extends_below ⟨hne, hplain⟩ destination⟩
  · intro entries e hread hrefused
    exact extract_of_refused hread hrefused expired s
  · intro written s' hextract path hpath
    have hleads := ((ensures_extract data expired s).of_ok rfl hextract).1 path hpath
    exact ⟨hleads, extends_below hleads destination⟩

section Trial

def trialArchive (name : String) : ByteArray :=
  let size := name.utf8ByteSize.toUInt8
  ⟨#[0x50, 0x4b, 3, 4, 20, 0, 0, 0, 0, 0, 0, 0, 0, 0, 0, 0, 0, 0, 0, 0, 0, 0, 0, 0, 0, 0, size, 0, 0,
    0]⟩ ++ name.toUTF8 ++
  ⟨#[0x50, 0x4b, 1, 2, 20, 0, 20, 0, 0, 0, 0, 0, 0, 0, 0, 0, 0, 0, 0, 0, 0, 0, 0, 0, 0, 0, 0, 0, size,
    0, 0, 0, 0, 0, 0, 0, 0, 0, 0, 0, 0, 0, 0, 0, 0, 0]⟩ ++ name.toUTF8 ++
  ⟨#[0x50, 0x4b, 5, 6, 0, 0, 0, 0, 1, 0, 1, 0, size + 46, 0, 0, 0, size + 30, 0, 0, 0, 0, 0]⟩

/-- A file that is named in a roundabout way is written, one that climbs out is not. -/
theorem trial_stays_inside :
    (∃ written s', extract (trialArchive "b\\..\\a") false none = .ok written s' ∧
      ∀ path ∈ written, LeadsDown path ∧ Extends "out" path (path.below "out")) ∧
    extract (trialArchive "b\\..\\..\\a") false none =
      .error (.pathTraversal "b\\..\\..\\a") none := by
  constructor
  · have hreturned : returned (fun _ _ => true) (extract (trialArchive "b\\..\\a") false none) := by
      decide +kernel
    obtain ⟨written, s', hextract, -⟩ := eq_ok_of_returned hreturned
    exact ⟨written, s', hextract,
      (entries_stay_inside "out" "" _ false none).2.2.2.2 written s' hextract⟩
  · have hdirectory : (Directory.read? (trialArchive "b\\..\\..\\a")).any (fun entries =>
        (refused? entries).any (·.name = "b\\..\\..\\a") &&
          entries.all (·.isReadable (trialArchive "b\\..\\..\\a"))) := by
      decide +kernel
    obtain ⟨entries, hread, hentries⟩ := (Option.any_eq_true _ _).mp hdirectory
    obtain ⟨hrefused, hreadable⟩ := Bool.and_eq_true_iff.mp hentries
    obtain ⟨e, he, hname⟩ := (Option.any_eq_true _ _).mp hrefused
    obtain ⟨error, hextract, herror⟩ :=
      (entries_stay_inside "out" "" _ false none).2.2.2.1 entries e hread he
    rw [hextract, herror (List.all_eq_true.mp hreadable), of_decide_eq_true hname]

end Trial

end ContentSpaces.Archive
