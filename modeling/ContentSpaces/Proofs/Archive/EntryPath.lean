import ContentSpaces.Archive.EntryPath
import Mathlib.Data.List.Basic
import Mathlib.Logic.Relation

/-!
# Where names of archive entries lead

The path of a name is the normal form of its components: empty components and single dots are
dropped, and an ordinary component goes together with the two dots behind it. There is none if the
name is absolute, or if some first components hold more double dots than ordinary components; then
the walk stops at the last of them.
-/

namespace ContentSpaces.Archive.EntryPath

variable {walked parts parts' path : List String} {part name directory : String}

def slashed (name : String) : List Char := name.toList.map fun c => if c = '\\' then '/' else c

def components (name : String) : List String := ((slashed name).splitOn '/').map String.ofList

def IsAbsolute (name : String) : Prop := (slashed name).head? = some '/'

def IsOrdinary (part : String) : Prop := part ≠ "" ∧ part ≠ "." ∧ part ≠ ".."

instance : DecidablePred IsOrdinary := fun part =>
  inferInstanceAs (Decidable (part ≠ "" ∧ part ≠ "." ∧ part ≠ ".."))

/-- Some first components hold more double dots than ordinary components. -/
def Climbs (parts : List String) : Prop :=
  ∃ first, first <+: parts ∧ first.countP (IsOrdinary ·) < first.count ".."

inductive Shortens : List String → List String → Prop
  | drop {part : String} (before after : List String) (h : part = "" ∨ part = ".") :
      Shortens (before ++ part :: after) (before ++ after)
  | takeBack {part : String} (before after : List String) (h : IsOrdinary part) :
      Shortens (before ++ part :: ".." :: after) (before ++ after)

/-- The components come down to a path that leads down throughout. -/
structure Normalizes (parts path : List String) : Prop where
  shortens : Relation.ReflTransGen Shortens parts path
  ordinary : ∀ part ∈ path, IsOrdinary part

section Walk

theorem component_cases (part : String) :
    (part = "" ∨ part = ".") ∨ part = ".." ∨ IsOrdinary part := by
  unfold IsOrdinary
  tauto

theorem resolve_drop (h : part = "" ∨ part = ".") (walked parts : List String) :
    resolve walked (part :: parts) = resolve walked parts := by
  simp only [resolve, h, if_true]

theorem resolve_down (h : IsOrdinary part) (walked parts : List String) :
    resolve walked (part :: parts) = resolve (part :: walked) parts := by
  simp only [resolve, h.1, h.2.1, h.2.2, or_self, if_false]

theorem resolve_up (part : String) (walked parts : List String) :
    resolve (part :: walked) (".." :: parts) = resolve walked parts := by
  simp [resolve]

theorem resolve_out (parts : List String) : resolve [] (".." :: parts) = none := by
  simp [resolve]

theorem resolve_ordinary (h : ∀ part ∈ path, IsOrdinary part) (walked : List String) :
    resolve walked path = some (walked.reverse ++ path) := by
  induction path generalizing walked with
  | nil => simp [resolve]
  | cons part path ih =>
    obtain ⟨hpart, hpath⟩ := List.forall_mem_cons.mp h
    rw [resolve_down hpart, ih hpath, List.reverse_cons, List.append_assoc, List.singleton_append]

theorem resolve_append_congr (h : ∀ walked, resolve walked parts = resolve walked parts')
    (before walked : List String) :
    resolve walked (before ++ parts) = resolve walked (before ++ parts') := by
  induction before generalizing walked with
  | nil => exact h walked
  | cons part before ih => simp only [List.cons_append, resolve, ih]

/-- A step of normalization leads the walk nowhere else. -/
theorem Shortens.resolve_eq (h : Shortens parts parts') (walked : List String) :
    resolve walked parts = resolve walked parts' := by
  cases h with
  | drop before after h => exact resolve_append_congr (fun walked => resolve_drop h walked after) _ _
  | takeBack before after h =>
    refine resolve_append_congr (fun walked => ?_) _ _
    rw [resolve_down h, resolve_up]

theorem resolve_eq_of_shortens (h : Relation.ReflTransGen Shortens parts parts')
    (walked : List String) : resolve walked parts = resolve walked parts' := by
  induction h with
  | refl => rfl
  | tail _ hlast ih => exact ih.trans (hlast.resolve_eq walked)

theorem Normalizes.resolve_eq (h : Normalizes parts path) : resolve [] parts = some path := by
  rw [resolve_eq_of_shortens h.shortens, resolve_ordinary h.ordinary, List.reverse_nil,
    List.nil_append]

/-- What was walked down so far and the components to come normalize to where the walk ends. -/
theorem normalizes_of_resolve (h : resolve walked parts = some path)
    (hwalked : ∀ part ∈ walked, IsOrdinary part) :
    Normalizes (walked.reverse ++ parts) path := by
  induction parts generalizing walked with
  | nil =>
    obtain rfl : walked.reverse = path := Option.some.inj h
    rw [List.append_nil]
    exact ⟨.refl, fun part hpart => hwalked part (List.mem_reverse.mp hpart)⟩
  | cons part parts ih =>
    obtain hdrop | rfl | hpart := component_cases part
    · rw [resolve_drop hdrop] at h
      obtain ⟨hshortens, hordinary⟩ := ih h hwalked
      exact ⟨.head (.drop _ _ hdrop) hshortens, hordinary⟩
    · cases walked with
      | nil =>
        rw [resolve_out] at h
        cases h
      | cons last walked =>
        obtain ⟨hlast, hrest⟩ := List.forall_mem_cons.mp hwalked
        rw [resolve_up] at h
        obtain ⟨hshortens, hordinary⟩ := ih h hrest
        have hstep : Shortens ((last :: walked).reverse ++ ".." :: parts)
            (walked.reverse ++ parts) := by
          rw [List.reverse_cons, List.append_assoc, List.singleton_append]
          exact .takeBack _ _ hlast
        exact ⟨.head hstep hshortens, hordinary⟩
    · rw [resolve_down hpart] at h
      have hnormalizes := ih h (List.forall_mem_cons.mpr ⟨hpart, hwalked⟩)
      rwa [List.reverse_cons, List.append_assoc, List.singleton_append] at hnormalizes

theorem resolve_eq_some_iff : resolve [] parts = some path ↔ Normalizes parts path :=
  ⟨fun h => normalizes_of_resolve h (List.forall_mem_nil _), Normalizes.resolve_eq⟩

theorem exists_prefix_cons {P : List String → Prop} (hnil : ¬ P []) :
    (∃ first, first <+: part :: parts ∧ P first) ↔ ∃ first, first <+: parts ∧ P (part :: first) := by
  simp only [List.prefix_cons_iff]
  constructor
  · rintro ⟨_, rfl | ⟨first, rfl, hfirst⟩, h⟩
    · exact absurd h hnil
    · exact ⟨first, hfirst, h⟩
  · rintro ⟨first, hfirst, h⟩
    exact ⟨_, .inr ⟨first, rfl, hfirst⟩, h⟩

/-- The walk fails where the double dots outnumber all that was walked down. -/
theorem resolve_eq_none_iff : resolve walked parts = none ↔
    ∃ first, first <+: parts ∧
      walked.length + first.countP (IsOrdinary ·) < first.count ".." := by
  induction parts generalizing walked with
  | nil => simp [resolve]
  | cons part parts ih =>
    rw [exists_prefix_cons (by simp)]
    obtain hdrop | rfl | hpart := component_cases part
    · have hordinary : ¬ IsOrdinary part := fun h => hdrop.elim h.1 h.2.1
      have hdots : part ≠ ".." := by
        rintro rfl
        exact absurd hdrop (by decide)
      rw [resolve_drop hdrop, ih]
      simp [hordinary, hdots]
    · have hordinary : ¬ IsOrdinary ".." := by decide
      cases walked with
      | nil =>
        refine iff_of_true (resolve_out parts) ⟨[], List.nil_prefix, ?_⟩
        decide
      | cons last walked =>
        rw [resolve_up, ih]
        refine exists_congr fun first => and_congr_right fun _ => ?_
        rw [List.countP_cons_of_neg (by simpa using hordinary), List.count_cons_self,
          List.length_cons]
        omega
    · rw [resolve_down hpart, ih]
      refine exists_congr fun first => and_congr_right fun _ => ?_
      rw [List.countP_cons_of_pos (by simpa using hpart), List.count_cons_of_ne hpart.2.2,
        List.length_cons]
      omega

end Walk

section Components

theorem forall_mem_splitOnP {α : Type} (p : α → Bool) (xs : List α) :
    ∀ piece ∈ xs.splitOnP p, ∀ x ∈ piece, p x = false := by
  induction xs with
  | nil => simp
  | cons x xs ih =>
    rw [List.splitOnP_cons_eq_if_modifyHead]
    split
    · exact List.forall_mem_cons.mpr ⟨List.forall_mem_nil _, ih⟩
    · rename_i hx
      obtain ⟨piece, pieces, hpieces⟩ := List.exists_cons_of_ne_nil (List.splitOnP_ne_nil p xs)
      rw [hpieces] at ih ⊢
      obtain ⟨hpiece, hrest⟩ := List.forall_mem_cons.mp ih
      exact List.forall_mem_cons.mpr
        ⟨List.forall_mem_cons.mpr ⟨Bool.eq_false_iff.mpr hx, hpiece⟩, hrest⟩

/-- Slashes for backslashes, then components between slashes: the same as components between
separators. -/
theorem components_eq (name : String) :
    components name = (split name.toList).map String.ofList := by
  unfold components slashed split
  congr 1
  rw [List.splitOn_eq_splitOnP]
  induction name.toList with
  | nil => rfl
  | cons c cs ih =>
    rw [List.map_cons, List.splitOnP_cons_eq_if_modifyHead, List.splitOnP_cons_eq_if_modifyHead, ih]
    by_cases hback : c = '\\'
    · simp [hback, isSeparator]
    · simp [hback, isSeparator]

theorem isAbsolute_iff : IsAbsolute name ↔ name.toList.head?.any isSeparator = true := by
  unfold IsAbsolute slashed
  cases name.toList with
  | nil => simp
  | cons c cs =>
    simp only [List.map_cons, List.head?_cons, Option.some.injEq, Option.any_some, isSeparator]
    split
    · simp_all
    · simp_all

theorem isSeparator_eq_false_of_mem (h : part ∈ components name) :
    ∀ c ∈ part.toList, isSeparator c = false := by
  rw [components_eq] at h
  obtain ⟨piece, hpiece, rfl⟩ := List.mem_map.mp h
  rw [String.toList_ofList]
  exact forall_mem_splitOnP isSeparator _ piece hpiece

theorem ofName?_of_absolute (h : IsAbsolute name) : ofName? name = none :=
  if_pos (isAbsolute_iff.mp h)

theorem ofName?_of_relative (h : ¬ IsAbsolute name) :
    ofName? name = resolve [] (components name) := by
  rw [components_eq]
  exact if_neg (mt isAbsolute_iff.mpr h)

theorem ofName?_eq_none_iff :
    ofName? name = none ↔ IsAbsolute name ∨ Climbs (components name) := by
  by_cases habsolute : IsAbsolute name
  · exact iff_of_true (ofName?_of_absolute habsolute) (.inl habsolute)
  · rw [ofName?_of_relative habsolute, resolve_eq_none_iff]
    simp only [habsolute, false_or, Climbs, List.length_nil, Nat.zero_add]

theorem ofName?_eq_some_iff :
    ofName? name = some path ↔ ¬ IsAbsolute name ∧ Normalizes (components name) path := by
  by_cases habsolute : IsAbsolute name
  · rw [ofName?_of_absolute habsolute]
    exact iff_of_false nofun fun h => h.1 habsolute
  · rw [ofName?_of_relative habsolute, resolve_eq_some_iff]
    exact (and_iff_right habsolute).symm

theorem Shortens.sublist (h : Shortens parts parts') : parts'.Sublist parts := by
  cases h with
  | drop before after _ => exact (List.sublist_cons_self _ _).append_left before
  | takeBack before after _ =>
    exact ((List.sublist_cons_self _ _).trans (List.sublist_cons_self _ _)).append_left before

theorem sublist_of_shortens (h : Relation.ReflTransGen Shortens parts parts') :
    parts'.Sublist parts := by
  induction h with
  | refl => exact .refl _
  | tail _ hlast ih => exact hlast.sublist.trans ih

end Components

/-- A component that a directory can hold: ordinary and without separators. -/
structure IsPlain (part : String) : Prop where
  ordinary : IsOrdinary part
  unseparated : ∀ c ∈ part.toList, isSeparator c = false

theorem isPlain_of_ofName? (h : ofName? name = some path) : ∀ part ∈ path, IsPlain part := by
  obtain ⟨-, hshortens, hordinary⟩ := ofName?_eq_some_iff.mp h
  intro part hpart
  exact ⟨hordinary part hpart,
    isSeparator_eq_false_of_mem ((sublist_of_shortens hshortens).subset hpart)⟩

/-- The path leads to something below the directory that it starts in. -/
structure LeadsDown (path : List String) : Prop where
  ne_nil : path ≠ []
  plain : ∀ part ∈ path, IsPlain part

section Below

/-- The components of a path as a text; slashes next to each other count as one. -/
def pieces (text : String) : List String :=
  ((text.toList.splitOn '/').map String.ofList).filter (· ≠ "")

structure Extends (directory : String) (path : List String) (text : String) : Prop where
  parts : pieces text = pieces directory ++ path
  top : text.toList.head? = some '/' ↔ directory.toList.head? = some '/'

theorem pieces_append_slash (directory rest : String) :
    pieces (directory ++ "/" ++ rest) = pieces directory ++ pieces rest := by
  have htext : (directory ++ "/" ++ rest).toList = directory.toList ++ '/' :: rest.toList := by simp
  unfold pieces
  rw [htext, List.splitOn_eq_splitOnP, List.splitOn_eq_splitOnP, List.splitOn_eq_splitOnP,
    List.splitOnP_append_cons _ _ (by simp), List.map_append, List.filter_append]

theorem pieces_append_of_endsWith (h : directory.endsWith "/") (rest : String) :
    pieces (directory ++ rest) = pieces directory ++ pieces rest := by
  rw [← String.endsWith_toSlice, String.Slice.endsWith_string_iff] at h
  obtain ⟨front, hfront⟩ := h
  have hdirectory : directory = String.ofList front ++ "/" ++ "" := by
    rw [← String.toList_inj]
    simpa using hfront.symm
  have hempty : pieces "" = [] := by decide
  calc pieces (directory ++ rest)
    _ = pieces (String.ofList front ++ "/" ++ rest) := by rw [hdirectory, String.append_empty]
    _ = pieces (String.ofList front) ++ pieces rest := pieces_append_slash _ rest
    _ = pieces directory ++ pieces rest := by
      rw [hdirectory, pieces_append_slash, hempty, List.append_nil]

theorem pieces_text (h : LeadsDown path) : pieces (text path) = path := by
  have hslash : ∀ cs ∈ path.map String.toList, '/' ∉ cs := by
    intro cs hcs hmem
    obtain ⟨part, hpart, rfl⟩ := List.mem_map.mp hcs
    exact absurd ((h.plain part hpart).unseparated _ hmem) (by decide)
  have hsplit : (text path).toList.splitOn '/' = path.map String.toList := by
    have htext : (text path).toList = ['/'].intercalate (path.map String.toList) :=
      String.toList_intercalate
    rw [htext, List.splitOn_intercalate '/' hslash (by simpa using h.ne_nil)]
  have hparts : ((text path).toList.splitOn '/').map String.ofList = path := by
    rw [hsplit, List.map_map]
    simp [Function.comp_def]
  unfold pieces
  rw [hparts, List.filter_eq_self]
  intro part hpart
  simpa using (h.plain part hpart).ordinary.1

theorem head?_text (h : ∀ part ∈ path, IsPlain part) : (text path).toList.head? ≠ some '/' := by
  cases path with
  | nil => decide
  | cons part rest =>
    obtain ⟨tail, htail⟩ : ∃ tail, text (part :: rest) = part ++ tail := by
      cases rest with
      | nil => exact ⟨"", by simp [text]⟩
      | cons next rest =>
        refine ⟨"/" ++ text (next :: rest), ?_⟩
        rw [text, String.intercalate_cons_cons, String.append_assoc]
        rfl
    have hpart : IsPlain part := h part List.mem_cons_self
    cases hcs : part.toList with
    | nil => exact absurd (String.toList_eq_nil_iff.mp hcs) hpart.ordinary.1
    | cons c cs =>
      have hc : isSeparator c = false := hpart.unseparated c (by simp [hcs])
      rw [htail, String.toList_append, hcs]
      rintro ⟨⟩
      exact absurd hc (by decide)

theorem head?_append (hdirectory : directory ≠ "") (rest : String) :
    (directory ++ rest).toList.head? = directory.toList.head? := by
  have hne : directory.toList ≠ [] := mt String.toList_eq_nil_iff.mp hdirectory
  rw [String.toList_append, List.head?_append_of_ne_nil _ hne]

theorem extends_below (h : LeadsDown path) (directory : String) :
    Extends directory path (below directory path) := by
  unfold below
  by_cases hdirectory : directory = ""
  · subst hdirectory
    rw [if_pos (.inl rfl), String.empty_append]
    exact ⟨pieces_text h, iff_of_false (head?_text h.plain) (by decide)⟩
  · split
    · rename_i hjoined
      have hends : directory.endsWith "/" := hjoined.resolve_left hdirectory
      exact ⟨by rw [pieces_append_of_endsWith hends, pieces_text h],
        by rw [head?_append hdirectory]⟩
    · exact ⟨by rw [pieces_append_slash, pieces_text h],
        by rw [String.append_assoc, head?_append hdirectory]⟩

end Below

end ContentSpaces.Archive.EntryPath
