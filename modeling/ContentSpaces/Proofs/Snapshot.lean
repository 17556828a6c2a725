import ContentSpaces.Proofs.Replica
import ContentSpaces.Sync.Snapshot

/-!
# Snapshots

The records of an archive give the same catalog whatever the size of the batches in which they are
written. Loading them replaces the catalog of the space. A snapshot that cannot be loaded leaves
the cursor alone and may have removed content.
-/

namespace ContentSpaces.Snapshot

open Replica

section Lines

variable {bs line : List UInt8}

theorem not_mem_of_mem_splitLines (h : line ∈ splitLines bs) : 10 ∉ line := by
  induction bs generalizing line with
  | nil => cases h
  | cons b bs ih =>
    unfold splitLines at h
    split at h
    · rcases List.mem_cons.mp h with rfl | h
      · exact List.not_mem_nil
      · exact ih h
    · rename_i hb
      cases hbs : splitLines bs with
      | nil =>
        rw [hbs] at h
        obtain rfl := List.mem_singleton.mp h
        simpa using Ne.symm hb
      | cons first lines =>
        rw [hbs] at h ih
        rcases List.mem_cons.mp h with rfl | h
        · simpa [Ne.symm hb] using ih List.mem_cons_self
        · exact ih (List.mem_cons_of_mem _ h)

theorem splitLines_ne_nil (b : UInt8) (bs : List UInt8) : splitLines (b :: bs) ≠ [] := by
  unfold splitLines
  split
  · simp
  · split <;> simp

theorem flatMap_splitLines_cons (b : UInt8) (hne : bs ≠ []) :
    (splitLines (b :: bs)).flatMap (· ++ [10]) = b :: (splitLines bs).flatMap (· ++ [10]) := by
  conv => lhs; unfold splitLines
  split
  · rename_i hb
    simp [hb]
  · obtain ⟨c, bs, rfl⟩ := List.exists_cons_of_ne_nil hne
    obtain ⟨line, lines, hlines⟩ := List.exists_cons_of_ne_nil (splitLines_ne_nil c bs)
    simp [hlines]

/-- The lines make up the text again, but for a line break that the last one may lack. -/
theorem flatMap_splitLines (bs : List UInt8) : (splitLines bs).flatMap (· ++ [10]) =
    if bs.getLast?.all (· = 10) then bs else bs ++ [10] := by
  induction bs with
  | nil => rfl
  | cons b bs ih =>
    cases bs with
    | nil =>
      unfold splitLines
      split <;> simp_all [splitLines]
    | cons c bs =>
      rw [flatMap_splitLines_cons b (List.cons_ne_nil c bs), ih, List.getLast?_cons_cons]
      split <;> rfl

end Lines

variable {cfg : Config} {space : Space} {w : World}

/-- The resources of lines, in their order; a line that cannot be read spoils them all. -/
def resources (space : Space) : List Line → Except SyncError (List Resource)
  | [] => .ok []
  | line :: lines =>
    match readLine space line with
    | .error e => .error e
    | .ok (.resource r) => (resources space lines).map (r :: ·)
    | .ok _ => resources space lines

def catalog? (space : Space) (files : List SourceFile) : Option Catalog :=
  (resources space ((recordFiles files).flatMap linesOf)).toOption.map (Catalog.enterAll .empty)

theorem ingested_of_readLine {line : Line} {r : Resource}
    (h : readLine space line = .ok (.resource r)) : r.Ingested space := by
  unfold readLine at h
  split at h
  · cases h
  extract_lets text at h
  split at h
  · cases h
  split at h
  · cases h
  cases hr : ofRecord space _ with
  | none =>
    rw [hr] at h
    cases h
  | some r' =>
    rw [hr] at h
    cases h
    unfold ofRecord at hr
    simp only [Option.bind_eq_bind, Option.bind_eq_some_iff] at hr
    obtain ⟨payload, -, name, -, kind, -, document, -, hr⟩ := hr
    refine ⟨kind, document, ?_⟩
    cases hingest : Resource.ingest kind space document with
    | error e =>
      rw [hingest] at hr
      cases hr
    | ok r'' =>
      rw [hingest] at hr
      cases hr
      rfl

theorem ingested_of_mem_resources {lines : List Line} {rs : List Resource}
    (h : resources space lines = .ok rs) : ∀ r ∈ rs, r.Ingested space := by
  induction lines generalizing rs with
  | nil =>
    cases h
    nofun
  | cons line lines ih =>
    unfold resources at h
    split at h
    · cases h
    · rename_i r hr
      cases hrest : resources space lines with
      | error e =>
        rw [hrest] at h
        cases h
      | ok rest =>
        rw [hrest] at h
        cases h
        exact List.forall_mem_cons.mpr ⟨ingested_of_readLine hr, ih hrest⟩
    · exact ih h

theorem ensures_flush {l : Loading} (hwaiting : ∀ r ∈ l.waiting, r.Ingested cfg.space) :
    Ensures (·.world = w) l.flush
      (fun l' m => l' = { l with waiting := [] } ∧
        Content.Edits cfg.space w.content (w.content.fileAll l.waiting.reverse) ∧
        m.world = { w with content := w.content.fileAll l.waiting.reverse })
      (fun _ m => ∃ c, Content.Edits cfg.space w.content c ∧
        m.world = { w with content := c }) := by
  have hrs : ∀ r ∈ l.waiting.reverse, r.Ingested cfg.space :=
    fun r hr => hwaiting r (List.mem_reverse.mp hr)
  refine (ensures_onStore (Q := fun _ c => c = w.content.fileAll l.waiting.reverse ∧
    Content.Edits cfg.space w.content c) (Store.ensures_createAll hrs w.content)).bind fun _ =>
      .pure ?_
  rintro m ⟨c, ⟨rfl, hedits⟩, h⟩
  exact ⟨rfl, hedits, h⟩

section Kept

variable {I : Store → Prop}

/-! A condition on the store that writing the resources of lines keeps is kept by loading them,
however it ends. -/

theorem keeps_flush {l : Loading} (h : ∀ r ∈ l.waiting, Keeps I (Store.create r) fun _ => True) :
    Keeps (fun m => I m.store) l.flush fun l' => l'.waiting = [] := by
  have hcreated := Store.keeps_createAll fun r hr => h r (List.mem_reverse.mp hr)
  exact Keeps.bind (ensures_onStore_of_ensures hcreated) fun _ _ => .pure rfl

theorem keeps_load (hread : ∀ line r, readLine cfg.space line = .ok (.resource r) →
      Keeps I (Store.create r) fun _ => True) (lines : List Line) {l : Loading}
    (h : ∀ r ∈ l.waiting, Keeps I (Store.create r) fun _ => True) :
    Keeps (fun m => I m.store) (load cfg lines l) fun _ => True := by
  induction lines generalizing l with
  | nil =>
    unfold load
    split
    · exact .pure trivial
    · exact (keeps_flush h).mono fun _ _ => trivial
  | cons line lines ih =>
    unfold load
    refine Keeps.bind (.ofExcept fun entry hentry => hentry) fun entry hentry => ?_
    cases entry with
    | blank => exact ih h
    | skipped => exact ih (l := { l with skipped := l.skipped + 1 }) h
    | resource r =>
      have hadded : ∀ r' ∈ (l.add r).waiting, Keeps I (Store.create r') fun _ => True :=
        List.forall_mem_cons.mpr ⟨hread line r hentry, h⟩
      dsimp only
      split
      · refine (keeps_flush hadded).bind fun l' hl' => ih ?_
        rw [hl']
        exact List.forall_mem_nil _
      · exact ih hadded

end Kept

/-- What loading lines has made of the content, with some resources waiting before. -/
structure Loaded (space : Space) (waiting : List Resource) (lines : List Line)
    (c c' : Content) : Prop where
  read : ∃ rs, resources space lines = .ok rs ∧ c' = c.fileAll (waiting.reverse ++ rs)
  edits : Content.Edits space c c'

theorem fileAll_append (c : Content) (rs rs' : List Resource) :
    c.fileAll (rs ++ rs') = (c.fileAll rs).fileAll rs' := List.foldl_append

theorem Loaded.of_flush {waiting : List Resource} {lines : List Line} {c c' : Content}
    (hedits : Content.Edits space c (c.fileAll waiting.reverse))
    (h : Loaded space [] lines (c.fileAll waiting.reverse) c') :
    Loaded space waiting lines c c' := by
  obtain ⟨⟨rs, hrs, rfl⟩, hrest⟩ := h
  exact ⟨⟨rs, hrs, (fileAll_append c _ rs).symm⟩, hedits.trans hrest⟩

theorem Loaded.cons_of_not_resource {waiting : List Resource} {line : Line} {lines : List Line}
    {entry : Entry} {c c' : Content} (hentry : readLine space line = .ok entry)
    (hnone : ∀ r, entry ≠ .resource r) (h : Loaded space waiting lines c c') :
    Loaded space waiting (line :: lines) c c' := by
  obtain ⟨⟨rs, hrs, hc⟩, hedits⟩ := h
  refine ⟨⟨rs, ?_, hc⟩, hedits⟩
  rw [resources, hentry]
  cases entry with
  | resource r => exact absurd rfl (hnone r)
  | blank => exact hrs
  | skipped => exact hrs

theorem Loaded.cons_of_resource {waiting : List Resource} {line : Line} {lines : List Line}
    {r : Resource} {c c' : Content} (hr : readLine space line = .ok (.resource r))
    (h : Loaded space (r :: waiting) lines c c') : Loaded space waiting (line :: lines) c c' := by
  obtain ⟨⟨rs, hrs, hc⟩, hedits⟩ := h
  refine ⟨⟨r :: rs, ?_, ?_⟩, hedits⟩
  · rw [resources, hr]
    simp only [hrs, Except.map]
  · rw [hc, List.reverse_cons, List.append_assoc, List.singleton_append]

theorem ensures_load {lines : List Line} {l : Loading}
    (hwaiting : ∀ r ∈ l.waiting, r.Ingested cfg.space) :
    Ensures (·.world = w) (load cfg lines l)
      (fun _ m => ∃ c, Loaded cfg.space l.waiting lines w.content c ∧
        m.world = { w with content := c })
      (fun _ m => ∃ c, Content.Edits cfg.space w.content c ∧
        m.world = { w with content := c }) := by
  induction lines generalizing w l with
  | nil =>
    unfold load
    split
    · rename_i hempty
      have hwaiting : l.waiting = [] := List.isEmpty_iff.mp hempty
      exact .pure fun m h => ⟨_, ⟨⟨[], rfl, by rw [hwaiting]; rfl⟩, .refl⟩, h⟩
    · refine (ensures_flush hwaiting).mono_ok ?_
      rintro _ m ⟨-, hedits, h⟩
      exact ⟨_, .of_flush hedits ⟨⟨[], rfl, rfl⟩, .refl⟩, h⟩
  | cons line lines ih =>
    unfold load
    refine Ensures.bind (.ofExcept (Q := fun entry m =>
      readLine cfg.space line = .ok entry ∧ m.world = w) (fun _ _ hentry h => ⟨hentry, h⟩)
      fun _ _ _ h => ⟨_, .refl, h⟩) fun entry => .of_and fun hentry => ?_
    cases entry with
    | blank =>
      refine (ih hwaiting).mono_ok ?_
      rintro _ m ⟨c, hloaded, h⟩
      exact ⟨c, hloaded.cons_of_not_resource hentry (fun _ => nofun), h⟩
    | skipped =>
      refine (ih (l := { l with skipped := l.skipped + 1 }) hwaiting).mono_ok ?_
      rintro _ m ⟨c, hloaded, h⟩
      exact ⟨c, hloaded.cons_of_not_resource hentry (fun _ => nofun), h⟩
    | resource r =>
      have hadded : ∀ r' ∈ (l.add r).waiting, r'.Ingested cfg.space :=
        List.forall_mem_cons.mpr ⟨ingested_of_readLine hentry, hwaiting⟩
      dsimp only
      split
      · refine Ensures.bind (ensures_flush hadded) fun l' => .of_and fun hl' => .of_and fun hedits =>
          ?_
        subst hl'
        refine (ih (l := { l.add r with waiting := [] }) nofun).mono (fun _ h => h) ?_ ?_
        · rintro _ m ⟨c, hloaded, h⟩
          exact ⟨c, .cons_of_resource hentry (.of_flush hedits hloaded), h⟩
        · rintro _ m ⟨c, hrest, h⟩
          exact ⟨c, hedits.trans hrest, h⟩
      · refine (ih hadded).mono_ok ?_
        rintro _ m ⟨c, hloaded, h⟩
        exact ⟨c, hloaded.cons_of_resource hentry, h⟩

/-- Ingested resources belong to the space, so loading them into an empty space gives their catalog. -/
theorem Loaded.catalog {lines : List Line} {c c' : Content} (h : Loaded space [] lines c c')
    (hempty : c.catalog space = .empty) :
    ∃ rs, resources space lines = .ok rs ∧ c'.catalog space = Catalog.enterAll .empty rs := by
  obtain ⟨⟨rs, hrs, rfl⟩, -⟩ := h
  refine ⟨rs, hrs, ?_⟩
  rw [← hempty]
  exact c.catalog_fileAll fun r hr => (ingested_of_mem_resources hrs r hr).space_eq

structure Replaced (space : Space) (files : List SourceFile) (c c' : Content) : Prop where
  catalog : ∃ rs, resources space (files.flatMap linesOf) = .ok rs ∧
    c'.catalog space = Catalog.enterAll .empty rs
  edits : Content.Edits space c c'

theorem ensures_clear : Ensures (·.world = w) (onStore (Store.clearSpace cfg.space))
    (fun _ m => ∃ c, (Content.Edits cfg.space w.content c ∧ c.catalog cfg.space = .empty) ∧
      m.world = { w with content := c })
    (fun _ m => ∃ c, Content.Edits cfg.space w.content c ∧ m.world = { w with content := c }) :=
  ensures_onStore (Store.ensures_clearSpace w.content)

theorem ensures_replaceContent (files : List SourceFile) :
    Ensures (·.world = w) (replaceContent cfg files)
      (fun _ m => ∃ c, Replaced cfg.space files w.content c ∧ m.world = { w with content := c })
      (fun _ m => ∃ c, Content.Edits cfg.space w.content c ∧
        m.world = { w with content := c }) := by
  unfold replaceContent
  refine ensures_clear.bind fun _ => .of_exists fun cleared => .of_and fun hcleared => ?_
  obtain ⟨hedits, hempty⟩ := hcleared
  refine Ensures.tryCatch (R := fun _ m => ∃ c, Content.Edits cfg.space cleared c ∧
    m.world = { w with content := c }) ?_ fun e => ?_
  · dsimp only
    split
    · exact .throw_bind fun m h => ⟨cleared, .refl, h⟩
    · refine (ensures_load (l := .none) (List.forall_mem_nil _)).mono_ok ?_
      rintro _ m ⟨c, hloaded, h⟩
      exact ⟨c, ⟨hloaded.catalog hempty, hedits.trans hloaded.edits⟩, h⟩
  · refine .of_exists fun c => .of_and fun hc => ?_
    refine (ensures_attempt (Q := fun m => ∃ c', Content.Edits cfg.space c c' ∧
      m.world = { w with content := c' }) (ensures_clear.mono_ok ?_)).bind fun _ => .throw ?_
    · rintro _ m ⟨c', ⟨hc', -⟩, h⟩
      exact ⟨c', hc', h⟩
    · rintro m ⟨c', hc', h⟩
      exact ⟨c', (hedits.trans hc).trans hc', h⟩

def Served (remote : Remote) (url : String) (files : List SourceFile) : Prop :=
  ∃ download expired, remote.snapshot url = .ok download ∧
    unpack download.archive expired = .ok files

theorem ensures_fetch (remote : Remote) (url : String) :
    Ensures (·.world = w) (fetch cfg remote url)
      (fun files m => Served remote url files ∧ m.world = w) (fun _ m => m.world = w) := by
  unfold fetch
  extract_lets download
  have hdownload (u : Unit) : Ensures (·.world = w) (download u)
      (fun files m => Served remote url files ∧ m.world = w) (fun _ m => m.world = w) := by
    refine Ensures.bind (ensures_ask _ _) fun answer => .of_and fun hanswer => ?_
    subst hanswer
    refine Ensures.bind (.ofExcept (Q := fun archive m =>
      remote.snapshot url = .ok archive ∧ m.world = w) (fun _ _ hx h => ⟨hx, h⟩)
      fun _ _ _ h => h) fun archive => .of_and fun harchive => ?_
    exact .ofExcept (fun _ _ hfiles h => ⟨⟨archive, _, harchive, hfiles⟩, h⟩) fun _ _ _ h => h
  split
  · exact .throw_bind fun _ h => h
  · exact hdownload ()

structure Installed (cfg : Config) (url : String) (offset : Nat) (files : List SourceFile)
    (w w' : World) : Prop where
  catalog : catalog? cfg.space files = some (w'.content.catalog cfg.space)
  edits : Content.Edits cfg.space w.content w'.content
  cursors : w'.cursors = { w.cursors with
    cursors := w.cursors.cursors.put { w.cursors.current cfg.owner with
      localOffset := offset
      remoteOffset := offset
      snapshotLink := url }
    calls := w.cursors.calls + 2 }
  registry : w'.registry = w.registry

structure Failed (cfg : Config) (w w' : World) : Prop where
  edits : Content.Edits cfg.space w.content w'.content
  cursors : w'.cursors = w.cursors ∨ w.cursors.Refused w'.cursors
  registry : w'.registry = w.registry

theorem ensures_install (url : String) (offset : Nat) (files : List SourceFile) :
    Ensures (·.world = w) (install cfg url offset files)
      (fun _ m => Installed cfg url offset files w m.world) (fun _ m => Failed cfg w m.world) := by
  unfold install
  refine ((ensures_replaceContent (recordFiles files)).mono_error ?_).bind fun _ =>
    .of_exists fun c => .of_and fun hreplaced => ?_
  · rintro _ m ⟨c, hedits, h⟩
    exact h ▸ ⟨hedits, .inl rfl, rfl⟩
  refine ((ensures_onCursors (CursorStore.ensures_revise _ _ _)).mono_error ?_).bind fun _ =>
    .pure ?_
  · rintro _ m ⟨s, hrefused, h⟩
    exact h ▸ ⟨hreplaced.edits, .inr hrefused, rfl⟩
  · rintro m ⟨s, rfl, h⟩
    obtain ⟨rs, hrs, hcatalog⟩ := hreplaced.catalog
    refine h ▸ ⟨?_, hreplaced.edits, rfl, rfl⟩
    rw [catalog?, hrs, hcatalog]
    rfl

theorem ensures_bootstrap (remote : Remote) {url : String} (hurl : Text.isBlankText url = false)
    (offset : Nat) :
    Ensures (·.world = w) (bootstrap cfg remote url offset)
      (fun _ m => ∃ files, Served remote url files ∧ Installed cfg url offset files w m.world)
      (fun _ m => Failed cfg w m.world) := by
  have hearly (m : Replica) (h : m.world = w) : Failed cfg w m.world :=
    h ▸ ⟨.refl, .inl rfl, rfl⟩
  unfold bootstrap
  rw [if_neg (by simp [hurl])]
  refine Ensures.bind ensures_get fun m => .of_and fun _ => ?_
  dsimp only
  split
  · exact .throw_bind hearly
  · refine ((ensures_fetch remote url).mono_error fun _ => hearly).bind fun files =>
      .of_and fun hserved => ?_
    exact (ensures_install url offset files).mono_ok fun _ _ h => ⟨files, hserved, h⟩

end ContentSpaces.Snapshot
