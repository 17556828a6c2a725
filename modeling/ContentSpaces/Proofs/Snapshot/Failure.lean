import ContentSpaces.Proofs.Snapshot.Replacement

/-!
# A snapshot that fails

While the store can be cleared, a snapshot that fails before all of it has been loaded leaves its
space as it was or empty. A snapshot that has been loaded stays when the cursor cannot be moved.
-/

namespace ContentSpaces

namespace Content

def KeptIn (space : Space) (c c' : Content) : Prop := ∀ a, a.space = space → c'.get? a = c.get? a

def EmptyIn (space : Space) (c : Content) : Prop := ∀ a, a.space = space → c.get? a = none

theorem emptyIn_withoutSpace (c : Content) (space : Space) :
    (c.withoutSpace space).EmptyIn space := by
  intro a ha
  rw [get?_withoutSpace, if_pos ha]

end Content

def Store.Clearable (s : Store) : Prop := ∀ n kind space, s.outage n (.clear kind space) = false

namespace Snapshot

open Replica

variable {cfg : Config} {space : Space} {c : Content}

/-- The store can be cleared, and outside of the space it holds what it held. -/
structure Spared (space : Space) (c : Content) (s : Store) : Prop where
  clearable : s.Clearable
  outside : ∀ a, a.space ≠ space → s.content.get? a = c.get? a

section Calls

open Store

theorem spared_create {r : Resource} (hr : r.space = space) :
    Keeps (Spared space c) (create r) fun _ => True := by
  intro s hs
  unfold create call
  dsimp only
  cases s.outage s.calls (.create r.address) with
  | true => exact ⟨hs.clearable, hs.outside⟩
  | false =>
    refine ⟨trivial, hs.clearable, fun a ha => ?_⟩
    have hne : a ≠ r.address := by
      rintro rfl
      exact ha hr
    exact (Content.get?_file ..).trans ((if_neg hne).trans (hs.outside a ha))

theorem spared_clear (kind : Kind) :
    Ensures (Spared space c) (clear kind space) (fun _ => Spared space c) fun _ _ => False := by
  intro s hs
  simp only [clear, call, hs.clearable s.calls kind space]
  refine ⟨hs.clearable, fun a ha => ?_⟩
  have hne : ¬ (a.kind = kind ∧ a.space = space) := fun h => ha h.2
  exact (Content.get?_withoutCollection ..).trans ((if_neg hne).trans (hs.outside a ha))

theorem spared_clearAmong (kinds : List Kind) :
    Ensures (Spared space c) (kinds.mapM fun kind => clear kind space) (fun _ => Spared space c)
      fun _ _ => False := by
  induction kinds with
  | nil => exact .mapM_nil fun _ hs => hs
  | cons kind kinds ih => exact .mapM_cons (spared_clear kind) fun _ => ih

theorem spared_clearSpace :
    Ensures (Spared space c) (clearSpace space)
      (fun _ s => Spared space c s ∧ s.content.EmptyIn space) fun _ _ => False := by
  have hspared : Ensures (Spared space c) (clearSpace space) (fun _ => Spared space c)
      fun _ _ => False := (spared_clearAmong Kind.all).bind fun _ => .pure fun _ hs => hs
  refine .intro (fun s n s' hs hr => ?_) fun s e s' hs hr => hspared.of_error hs hr
  have hcontent := (ensures_clearSpace_exact s.content).of_ok rfl hr
  exact ⟨hspared.of_ok hs hr, hcontent ▸ s.content.emptyIn_withoutSpace space⟩

end Calls

section Loading

theorem spared_load (lines : List Line) :
    Keeps (fun m => Spared cfg.space c m.store) (load cfg lines .none) fun _ => True :=
  keeps_load (fun _ _ hr => spared_create (ingested_of_readLine hr).space_eq) lines
    (List.forall_mem_nil _)

/-- What cannot be loaded after the space was cleared is cleared away again. -/
theorem spared_replaceContent (files : List SourceFile) :
    Ensures (fun m => Spared cfg.space c m.store) (replaceContent cfg files)
      (fun _ m => Spared cfg.space c m.store)
      (fun _ m => Spared cfg.space c m.store ∧ m.store.content.EmptyIn cfg.space) := by
  have hclear : Ensures (fun m : Replica => Spared cfg.space c m.store)
      (onStore (Store.clearSpace cfg.space))
      (fun _ m => Spared cfg.space c m.store ∧ m.store.content.EmptyIn cfg.space)
      (fun _ _ => False) := ensures_onStore_of_ensures spared_clearSpace
  unfold replaceContent
  refine Ensures.bind (R := fun _ m => Spared cfg.space c m.store)
    (hclear.mono (fun _ h => h) (fun _ _ h => h.1) fun _ _ h => h.elim) fun _ => ?_
  refine Ensures.tryCatch (R := fun _ m => Spared cfg.space c m.store) ?_ fun e => ?_
  · dsimp only
    split
    · exact .throw_bind fun _ h => h
    · exact Ensures.mono_ok (spared_load _) fun _ _ h => h.2
  · refine (ensures_attempt (hclear.mono_error fun _ _ h => h.elim)).bind fun _ => ?_
    exact .throw fun _ h => h

end Loading

section Failure

variable {remote : Remote} {url : String} {offset : Nat} {m m' : Replica} {e : SyncError}

/-- All of the snapshot can be fetched, read and written, which makes the content as given. -/
def Loads (cfg : Config) (remote : Remote) (url : String) (m : Replica) (c : Content) : Prop :=
  cfg.workDirectory.all m.scratch = true ∧
    ∃ files mid l loaded, fetch cfg remote url m = .ok files mid ∧
      replaceContent cfg (recordFiles files) mid = .ok l loaded ∧ loaded.store.content = c

theorem Loads.unique {c' : Content} (h : Loads cfg remote url m c)
    (h' : Loads cfg remote url m c') : c' = c := by
  obtain ⟨-, files, mid, l, loaded, hfetch, hreplace, rfl⟩ := h
  obtain ⟨-, files', mid', l', loaded', hfetch', hreplace', rfl⟩ := h'
  cases hfetch.symm.trans hfetch'
  cases hreplace.symm.trans hreplace'
  rfl

theorem ensures_fetch_store (s : Store) :
    Keeps (fun m => m.store = s) (fetch cfg remote url) fun _ => True := by
  have hask (answer : Except SyncError Download) :
      Keeps (fun m => m.store = s) (ask (.snapshot url) answer) fun _ => True :=
    fun _ hm => ⟨trivial, hm⟩
  unfold fetch
  extract_lets download
  have hdownload (u : Unit) : Keeps (fun m => m.store = s) (download u) fun _ => True := by
    refine (hask _).bind fun answer _ => ?_
    refine Keeps.bind (.ofExcept fun _ hx => hx) fun archive _ => ?_
    exact .ofExcept fun _ _ => trivial
  split
  · exact .throw_bind
  · exact hdownload ()

/-- How a snapshot fails: before anything is written, while it is loaded, or afterwards. -/
inductive Failure (cfg : Config) (remote : Remote) (url : String) (m m' : Replica) : Prop
  | early (hstore : m'.store = m.store) (hunloaded : ∀ c, ¬ Loads cfg remote url m c)
  | loading (hempty : m'.store.content.EmptyIn cfg.space)
      (hunloaded : ∀ c, ¬ Loads cfg remote url m c)
  | loaded (hloads : Loads cfg remote url m m'.store.content)
      (hrefused : ∃ n request, m.cursors.outage n request = true)

theorem failure_of_bootstrap (hm : m.store.Clearable)
    (h : bootstrap cfg remote url offset m = .error e m') :
    Failure cfg remote url m m' ∧ Spared cfg.space m.store.content m'.store := by
  have hstart : Spared cfg.space m.store.content m.store := ⟨hm, fun _ _ => rfl⟩
  unfold bootstrap at h
  split at h
  · cases h
  obtain h | ⟨now, read, hread, h⟩ := bind_eq_error_iff.mp h
  · cases h
  cases hread
  split at h
  · rename_i hscratch
    cases h
    refine ⟨.early rfl fun c hc => ?_, hstart⟩
    simp [hc.1] at hscratch
  rename_i hscratch
  obtain hfetch | ⟨files, mid, hfetch, h⟩ := bind_eq_error_iff.mp h
  · have hstore : m'.store = m.store := (ensures_fetch_store m.store).of_error rfl hfetch
    refine ⟨.early hstore fun c hc => ?_, hstore ▸ hstart⟩
    obtain ⟨-, files, mid, l, loaded, hfetched, -⟩ := hc
    cases hfetch.symm.trans hfetched
  have hmid : Spared cfg.space m.store.content mid.store :=
    ((ensures_fetch_store m.store).of_ok rfl hfetch).2 ▸ hstart
  obtain hreplace | ⟨l, loaded, hreplace, h⟩ := bind_eq_error_iff.mp h
  · obtain ⟨hspared, hempty⟩ := (spared_replaceContent _).of_error hmid hreplace
    refine ⟨.loading hempty fun c hc => ?_, hspared⟩
    obtain ⟨-, files', mid', l, loaded, hfetched, hreplaced, -⟩ := hc
    cases hfetch.symm.trans hfetched
    cases hreplace.symm.trans hreplaced
  have hspared := (spared_replaceContent _).of_ok hmid hreplace
  obtain hrevise | ⟨_, done, hrevise, h⟩ := bind_eq_error_iff.mp h
  · have hkept := keeps_onCursors (I := (· = loaded.store))
      (CursorStore.revise cfg.owner fun c =>
        { c with localOffset := offset, remoteOffset := offset, snapshotLink := url })
    have hstore : m'.store = loaded.store := Ensures.of_error hkept rfl hrevise
    have hcursors : loaded.cursors = m.cursors := by
      have hworld := ((ensures_fetch remote url).of_ok rfl hfetch).2
      obtain ⟨c, -, hloaded⟩ := (ensures_replaceContent _).of_ok hworld hreplace
      exact congrArg World.cursors hloaded
    obtain ⟨s, hrefused, -⟩ :=
      (ensures_onCursors (CursorStore.ensures_revise _ _ _)).of_error rfl hrevise
    have hwritable : cfg.workDirectory.all m.scratch = true := by simpa using hscratch
    refine ⟨.loaded ⟨hwritable, files, mid, l, loaded, hfetch, hreplace, ?_⟩ ?_, hstore ▸ hspared⟩
    · rw [hstore]
    · rw [← hcursors]
      exact hrefused.refusal
  · cases h

/-- A failed snapshot changes no other space and moves no cursor. It leaves its space as it was or
empty, unless all of it was loaded and then a call for the cursor was refused: so much it leaves. -/
theorem bootstrap_error_leaves (hm : m.store.Clearable)
    (h : bootstrap cfg remote url offset m = .error e m') :
    (∀ a, a.space ≠ cfg.space → m'.store.content.get? a = m.store.content.get? a) ∧
      m'.cursors.cursors = m.cursors.cursors ∧
      (m.store.content.KeptIn cfg.space m'.store.content ∨ m'.store.content.EmptyIn cfg.space ↔
        ∀ c, Loads cfg remote url m c →
          m.store.content.KeptIn cfg.space c ∨ c.EmptyIn cfg.space) ∧
      ∀ c, Loads cfg remote url m c →
        m'.store.content = c ∧ ∃ n request, m.cursors.outage n request = true := by
  obtain ⟨hfailure, hspared⟩ := failure_of_bootstrap hm h
  refine ⟨hspared.outside, ?_, ?_, ?_⟩
  · have hurl : Text.isBlankText url = false := by
      cases hblank : Text.isBlankText url with
      | false => rfl
      | true =>
        rw [bootstrap, if_pos hblank] at h
        cases h
    have hfailed : Failed cfg m.world m'.world :=
      (ensures_bootstrap remote hurl offset).of_error rfl h
    obtain hsame | hrefused := hfailed.cursors
    · exact congrArg CursorStore.cursors hsame
    · exact hrefused.cursors
  · cases hfailure with
    | early hstore hunloaded =>
      refine iff_of_true (.inl fun a _ => ?_) fun c hc => absurd hc (hunloaded c)
      rw [hstore]
    | loading hempty hunloaded =>
      exact iff_of_true (.inr hempty) fun c hc => absurd hc (hunloaded c)
    | loaded hloads _ =>
      constructor
      · intro hleft c hc
        rwa [hloads.unique hc]
      · intro hall
        exact hall _ hloads
  · intro c hc
    cases hfailure with
    | early _ hunloaded => exact absurd hc (hunloaded c)
    | loading _ hunloaded => exact absurd hc (hunloaded c)
    | loaded hloads hrefused => exact ⟨hc.unique hloads, hrefused⟩

end Failure

section Unmovable

def unmovable : Replica :=
  { Replica.of .empty .empty with cursors := Cycle.unwritable ⟨"consumer", "context", 0, 0, ""⟩ }

theorem bootstrap_unmovable : ∃ e m',
    bootstrap Sync.trialConfig (Sync.announcing (.ok [])) "u" 1 unmovable = .error e m' ∧
      (m'.store.content.get? ⟨.rule, .standard, "r"⟩).isSome := by
  have hends : (match bootstrap Sync.trialConfig (Sync.announcing (.ok [])) "u" 1 unmovable with
      | .error _ m' => (m'.store.content.get? ⟨.rule, .standard, "r"⟩).isSome
      | .ok _ _ => false) = true := by
    decide +kernel
  cases h : bootstrap Sync.trialConfig (Sync.announcing (.ok [])) "u" 1 unmovable with
  | ok report m' =>
    rw [h] at hends
    cases hends
  | error e m' =>
    rw [h] at hends
    exact ⟨e, m', rfl, hends⟩

/-- The rule of the snapshot stays in a space that was empty before. -/
theorem unmovable_neither_kept_nor_empty : unmovable.store.Clearable ∧ ∃ e m',
    bootstrap Sync.trialConfig (Sync.announcing (.ok [])) "u" 1 unmovable = .error e m' ∧
      ¬ (unmovable.store.content.KeptIn .standard m'.store.content ∨
        m'.store.content.EmptyIn .standard) := by
  obtain ⟨e, m', h, hrule⟩ := bootstrap_unmovable
  refine ⟨fun _ _ _ => rfl, e, m', h, ?_⟩
  rintro (hkept | hempty)
  · rw [hkept ⟨.rule, .standard, "r"⟩ rfl] at hrule
    cases hrule
  · rw [hempty ⟨.rule, .standard, "r"⟩ rfl] at hrule
    cases hrule

theorem unmovable_leaves : unmovable.store.Clearable ∧ ∃ e m',
    bootstrap Sync.trialConfig (Sync.announcing (.ok [])) "u" 1 unmovable = .error e m' ∧
      m'.cursors.cursors = unmovable.cursors.cursors ∧
      (unmovable.store.content.KeptIn .standard m'.store.content ∨
          m'.store.content.EmptyIn .standard ↔
        ∀ c, Loads Sync.trialConfig (Sync.announcing (.ok [])) "u" unmovable c →
          unmovable.store.content.KeptIn .standard c ∨ c.EmptyIn .standard) := by
  obtain ⟨e, m', h, -⟩ := bootstrap_unmovable
  have hclearable : unmovable.store.Clearable := fun _ _ _ => rfl
  have hleaves := bootstrap_error_leaves hclearable h
  exact ⟨hclearable, e, m', h, hleaves.2.1, hleaves.2.2.1⟩

end Unmovable

end Snapshot

end ContentSpaces
