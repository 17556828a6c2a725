import ContentSpaces.Files
import Mathlib.Data.List.Basic

/-!
# Writing files

A write makes no directory and removes none, so every path leads where it led before, and only the
file that is written changes.
-/

namespace ContentSpaces.Files

variable {files files' : Files} {path text directory name : String}

theorem write_of_failed (h : files.write path text = (files', false)) : files' = files := by
  unfold write makeFile at h
  grind

theorem write_of_made (h : files.write path text = (files', true)) :
    ∃ p, files.resolve? path = some p ∧ p ≠ [] ∧ files.get? p ≠ some .directory ∧
      ∀ q, files'.get? q = if q = p then some (.file text.toUTF8) else files.get? q := by
  unfold write at h
  split at h
  · cases h
  · cases h
  · rename_i p hne hp
    cases hmade : files.makeFile p with
    | mk made ok =>
      rw [hmade] at h
      cases ok with
      | false => cases h
      | true =>
        cases h
        refine ⟨p, hp, hne, fun hdirectory => ?_, fun q => ?_⟩
        · simp [makeFile, hdirectory] at hmade
        · have hmade' : made = files.insert p (.file .empty) := by
            unfold makeFile at hmade
            grind
          rw [Table.get?_insert, hmade', Table.get?_insert]
          split <;> rfl

theorem isDirectory_write (h : files.write path text = (files', true)) (q : List String) :
    files'.isDirectory q = files.isDirectory q := by
  obtain ⟨p, -, -, hfile, hget⟩ := write_of_made h
  unfold isDirectory
  rw [hget]
  split
  · rename_i hq
    subst hq
    cases hnode : files.get? q with
    | none => rfl
    | some node =>
      cases node with
      | directory => exact absurd hnode hfile
      | file content => rfl
  · rfl

/-- Where a path leads depends on the directories only. -/
theorem follow_congr (h : ∀ q, files'.isDirectory q = files.isDirectory q) (here parts : List String) :
    files'.follow here parts = files.follow here parts := by
  induction parts generalizing here with
  | nil => rfl
  | cons part parts ih => simp only [follow, h, ih]

theorem resolve?_write (h : files.write path text = (files', true)) (other : String) :
    files'.resolve? other = files.resolve? other := by
  unfold resolve?
  congr 1
  funext parts
  exact follow_congr (isDirectory_write h) [] parts

/-- A written text is found along every path that leads there, and elsewhere all is as before. -/
theorem find?_write (h : files.write path text = (files', true)) (other : String) :
    files'.find? other =
      if files.resolve? other = files.resolve? path then some (.file text.toUTF8)
      else files.find? other := by
  obtain ⟨p, hp, hne, -, hget⟩ := write_of_made h
  unfold find?
  rw [resolve?_write h, hp]
  cases hother : files.resolve? other with
  | none => rfl
  | some q =>
    cases q with
    | nil => simp [hne.symm]
    | cons part parts =>
      simp only [Option.some.injEq, hget]

theorem follow_append (here parts parts' : List String) :
    files.follow here (parts ++ parts') =
      (files.follow here parts).bind fun there => files.follow there parts' := by
  induction parts generalizing here with
  | nil => rfl
  | cons part parts ih =>
    simp only [List.cons_append, follow, ih]
    split
    · rfl
    · split
      · rfl
      · split
        · split <;> rfl
        · rfl

/-- A plain name in a directory leads to that name. -/
theorem exists_of_resolve?_child {p : List String} (hseparator : '/' ∉ name.toList)
    (hplain : name ∉ ["", ".", ".."]) (h : files.resolve? (directory ++ "/" ++ name) = some p) :
    ∃ q, p = q ++ [name] := by
  obtain ⟨parts, hparts, hfollow⟩ := Option.bind_eq_some_iff.mp h
  have hsplit : parts =
      (directory.toList.splitOnP (· == '/')).map String.ofList ++ [name] := by
    have hname : name.toList.splitOnP (· == '/') = [name.toList] :=
      List.splitOnP_eq_singleton fun c hc => by
        simp only [beq_eq_false_iff_ne]
        rintro rfl
        exact hseparator hc
    have htext : (directory ++ "/" ++ name).toList = directory.toList ++ '/' :: name.toList := by
      simp
    unfold parts? at hparts
    split at hparts
    · cases hparts
    · cases hparts
      rw [htext, List.splitOnP_append_cons _ _ rfl, hname, List.map_append, List.map_singleton,
        String.ofList_toList]
  rw [hsplit, follow_append] at hfollow
  obtain ⟨q, -, hlast⟩ := Option.bind_eq_some_iff.mp hfollow
  refine ⟨q, ?_⟩
  simp only [List.mem_cons, List.not_mem_nil, or_false, not_or] at hplain
  obtain ⟨hempty, hdot, hdots⟩ := hplain
  simp only [follow, hempty, hdot, hdots, or_self, if_false] at hlast
  split at hlast
  · cases hlast
  · exact (Option.some.inj hlast).symm

/-- Writing texts ends where a write fails, as if the run had been stopped there. -/
theorem exists_writeAll_take (files : Files) (written : List (String × String)) :
    ∃ k, files.writeAll (written.take k) = ((files.writeAll written).1, true) := by
  induction written generalizing files with
  | nil => exact ⟨0, rfl⟩
  | cons entry written ih =>
    obtain ⟨path, text⟩ := entry
    cases hwrite : files.write path text with
    | mk files' ok =>
      cases ok with
      | true =>
        obtain ⟨k, hk⟩ := ih files'
        exact ⟨k + 1, by simpa [writeAll, hwrite] using hk⟩
      | false =>
        have hsame := write_of_failed hwrite
        exact ⟨0, by simp [writeAll, hwrite, hsame]⟩

end ContentSpaces.Files
