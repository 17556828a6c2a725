import ContentSpaces.Proofs.Replica

/-!
# Update cycles

A cycle that returns has applied its whole batch to the catalog of the space and has moved the
cursor. One that fails has made some of the writes, or none; unless it failed before the first of
them, it has tried to reset the cursor.
-/

namespace ContentSpaces.Cycle

open Replica

variable {cfg : Config} {space : Space} {w : World}

namespace Effect

def tasks : Effect → List Task
  | .changed task => task.toList
  | .skipped => []

def isChanged : Effect → Bool
  | .changed _ => true
  | .skipped => false

end Effect

def tally (effects : List Effect) : Progress := effects.foldl (fun p effect => note effect p) .none

theorem foldl_note (effects : List Effect) (p : Progress) :
    effects.foldl (fun p effect => note effect p) p =
      ⟨p.applied + effects.countP Effect.isChanged,
        p.skipped + effects.countP (!·.isChanged), p.tasks ++ effects.flatMap Effect.tasks⟩ := by
  induction effects generalizing p with
  | nil => simp
  | cons effect effects ih =>
    rw [List.foldl_cons, ih]
    cases effect with
    | changed task =>
      simp only [note, Effect.isChanged, Effect.tasks, List.countP_cons, List.flatMap_cons,
        List.append_assoc]
      simp
      omega
    | skipped =>
      simp only [note, Effect.isChanged, Effect.tasks, List.countP_cons, List.flatMap_cons]
      simp
      omega

theorem tally_eq (effects : List Effect) : tally effects =
    ⟨effects.countP Effect.isChanged, effects.countP (!·.isChanged),
      effects.flatMap Effect.tasks⟩ := by
  rw [tally, foldl_note]
  simp [Progress.none]

theorem flatMap_tasks_eq_nil {effects : List Effect} (h : effects.countP Effect.isChanged = 0) :
    effects.flatMap Effect.tasks = [] := by
  rw [List.flatMap_eq_nil_iff]
  intro effect hmem
  cases effect with
  | changed task => exact absurd rfl (List.countP_eq_zero.mp h _ hmem)
  | skipped => rfl

structure Applied (space : Space) (c : Content) (changes : List Change) (effects : List Effect)
    (c' : Content) : Prop where
  catalog : c.Filed →
    (c.catalog space).applyAll space changes = some (effects, c'.catalog space)
  edits : Content.Edits space c c'
  idle : effects.countP Effect.isChanged = 0 → c' = c

def Targets (space : Space) (change : Change) (c : Content) (a : Address) : Prop :=
  a.space = space ∧ (c.Filed → (c.catalog space).target? change.resource = some a.subject)

theorem ensures_located {change : Change} (htarget : w.content.Filed →
      (w.content.catalog space).target? change.resource =
        ((w.content.catalog space).locate? change.resource).map fun kind =>
          ⟨kind, change.resource⟩) :
    Ensures (·.world = w)
      (onStore (Store.locate space change.resource) >>= fun found => match found with
        | some kind => pure (⟨kind, space, change.resource⟩ : Address)
        | none => throw (.protocol (.unknownTarget change.offset change.resource)))
      (fun a m => Targets space change w.content a ∧ m.world = w) (fun _ m => m.world = w) := by
  refine Ensures.bind (ensures_onStore_of_reads (Store.reads_locate space change.resource))
    fun found => .of_and fun hfound => ?_
  cases found with
  | none => exact .throw fun _ h => h
  | some kind =>
    refine .pure fun _ h => ⟨⟨rfl, fun hfiled => ?_⟩, h⟩
    rw [htarget hfiled, ← hfound]
    rfl

theorem ensures_updateTarget (change : Change) :
    Ensures (·.world = w) (updateTarget space change)
      (fun a m => Targets space change w.content a ∧ m.world = w) (fun _ m => m.world = w) := by
  unfold updateTarget
  split
  · rename_i halias
    refine Ensures.bind (ensures_onStore_of_reads (Store.reads_policy? space))
      fun policy => .of_and fun hpolicy => ?_
    have hpolicyId (hfiled : w.content.Filed) :
        (w.content.catalog space).policyId? = policy.map Resource.id := by
      rw [hfiled.policyId?_catalog, hpolicy]
    cases policy with
    | some r =>
      refine .pure fun _ h => ⟨⟨rfl, fun hfiled => ?_⟩, h⟩
      rw [Catalog.target?, if_pos halias, hpolicyId hfiled]
      rfl
    | none =>
      refine ensures_located fun hfiled => ?_
      rw [Catalog.target?, if_pos halias, hpolicyId hfiled]
      rfl
  · rename_i halias
    refine ensures_located fun _ => ?_
    rw [Catalog.target?, if_neg halias]

section Apply

variable {c c' : Content}

theorem Applied.nil (c : Content) : Applied space c [] [] c :=
  ⟨fun _ => rfl, .refl, fun _ => rfl⟩

theorem Applied.cons {change : Change} {changes : List Change} {effect : Effect}
    {effects : List Effect} {mid : Content} (hfirst : Applied space c [change] [effect] mid)
    (hrest : Applied space mid changes effects c') :
    Applied space c (change :: changes) (effect :: effects) c' where
  catalog hfiled := Catalog.applyAll_append (hfirst.catalog hfiled)
    (hrest.catalog (hfirst.edits.filed hfiled))
  edits := hfirst.edits.trans hrest.edits
  idle h := by
    rw [List.countP_cons] at h
    have hmid := hfirst.idle (by rw [List.countP_cons, List.countP_nil]; omega)
    rw [hrest.idle (by omega), hmid]

theorem Applied.skipped {change : Change} (h : c.Filed →
    (c.catalog space).apply space change = some (.skipped, c.catalog space)) :
    Applied space c [change] [.skipped] c where
  catalog hfiled := by
    rw [Catalog.applyAll, h hfiled]
    rfl
  edits := .refl
  idle _ := rfl

theorem Applied.changed {change : Change} {task : Option Task} (hedit : Content.Edit space c c')
    (h : c.Filed →
      (c.catalog space).apply space change = some (.changed task, c'.catalog space)) :
    Applied space c [change] [.changed task] c' where
  catalog hfiled := by
    rw [Catalog.applyAll, h hfiled]
    rfl
  edits := .single hedit
  idle h := by
    rw [List.countP_cons] at h
    cases h

theorem ensures_create {change : Change} (hkind : change.kind = .create) {payload : Payload}
    (hpayload : change.payload = some payload) {kind : Kind} (hknown : payload.kind? = some kind)
    (c : Content) :
    Ensures (·.content = c)
      (do
        let r ← ofExcept (Resource.ingest kind space payload.document)
        Store.create r
        return .changed (Task.upsert? r) : StoreM Effect)
      (fun effect s => Applied space c [change] [effect] s.content) (fun _ s => s.content = c) := by
  refine Ensures.bind (.ofExcept (Q := fun r s =>
    Resource.ingest kind space payload.document = .ok r ∧ s.content = c)
    (fun _ _ hr h => ⟨hr, h⟩) fun _ _ _ h => h) fun r => .of_and fun hr => ?_
  refine (Store.ensures_create r c).bind fun _ => .pure fun s h => ?_
  rw [h]
  exact .changed (.ingest hr) fun _ => c.apply_catalog_of_ingest hkind hpayload hknown hr

theorem ensures_revise {change : Change} (hkind : change.kind = .update) {target : Address}
    {c : Content} (htarget : Targets space change c target) :
    Ensures (·.content = c) (Store.update target change.operations)
      (fun r s => Applied space c [change] [.changed (Task.upsert? r)] s.content)
      (fun _ s => s.content = c) := by
  refine (Store.ensures_update target change.operations c).mono_ok ?_
  rintro r s ⟨⟨current, hstored, hpatch⟩, h⟩
  rw [h]
  exact .changed (.patch hstored htarget.1 hpatch) fun hfiled =>
    hfiled.apply_catalog_of_applyPatch hkind (htarget.2 hfiled) htarget.1 hstored hpatch

theorem ensures_remove {change : Change} (hkind : change.kind = .delete) (c : Content) :
    Ensures (·.content = c)
      (do
        match ← Store.locate space change.resource with
        | none => return .skipped
        | some kind =>
          let _ ← Store.delete ⟨kind, space, change.resource⟩
          return .changed (Task.delete? kind change.resource) : StoreM Effect)
      (fun effect s => Applied space c [change] [effect] s.content) (fun _ s => s.content = c) := by
  refine Ensures.bind (Store.reads_locate space change.resource c) fun found =>
    .of_and fun hfound => ?_
  replace hfound : (c.catalog space).locate? change.resource = found := hfound.symm
  cases found with
  | none =>
    refine .pure fun s h => ?_
    rw [h]
    refine .skipped fun _ => ?_
    rw [Catalog.apply, hkind]
    simp only [hfound]
  | some kind =>
    refine (Store.ensures_delete _ c).bind fun _ => .pure fun s h => ?_
    rw [h]
    refine .changed (.erase kind change.resource) fun _ => ?_
    rw [Catalog.apply, hkind, Content.catalog_erase]
    simp only [hfound]

theorem ensures_apply (change : Change) :
    Ensures (·.world = w) (apply space change)
      (fun effect m => ∃ c, Applied space w.content [change] [effect] c ∧
        m.world = { w with content := c })
      (fun _ m => m.world = w) := by
  have hunchanged : ∀ e m, (∃ c, c = w.content ∧ m.world = { w with content := c }) →
      (fun (_ : SyncError) (m : Replica) => m.world = w) e m := by
    rintro _ m ⟨c, rfl, h⟩
    exact h
  unfold apply
  cases hkind : change.kind with
  | create =>
    simp only
    cases hpayload : change.payload with
    | none => exact .throw fun _ h => h
    | some payload =>
      simp only
      cases hknown : payload.kind? with
      | none =>
        refine .pure fun _ h => ⟨_, .skipped fun _ => ?_, h⟩
        simp [Catalog.apply, hkind, hpayload, hknown]
      | some kind =>
        simp only
        refine Ensures.mono_error ?_ hunchanged
        exact ensures_onStore (ensures_create hkind hpayload hknown w.content)
  | update =>
    simp only
    refine (ensures_updateTarget change).bind fun target => .of_and fun htarget => ?_
    refine Ensures.bind ?_ fun r => .pure fun _ h => h
    exact (ensures_onStore (ensures_revise hkind htarget)).mono_error hunchanged
  | delete =>
    simp only
    exact (ensures_onStore (ensures_remove hkind w.content)).mono_error hunchanged

theorem ensures_applyAll (cancelled : Bool) (changes : List Change) :
    Ensures (·.world = w) (applyAll space cancelled changes)
      (fun _ m => ∃ c effects, Applied space w.content changes effects c ∧
        m.world = { w with
          content := c
          progress := effects.foldl (fun p effect => note effect p) w.progress })
      (fun _ m => ∃ c p, Content.Edits space w.content c ∧
        m.world = { w with content := c, progress := p }) := by
  induction changes generalizing w with
  | nil => exact .pure fun _ h => ⟨_, _, .nil _, h⟩
  | cons change changes ih =>
    unfold applyAll
    split
    · exact .throw fun _ h => ⟨_, _, .refl, h⟩
    refine Ensures.bind ((ensures_apply change).mono_error fun _ _ h => ⟨_, _, .refl, h⟩)
      fun effect => ?_
    refine .of_exists fun c => .of_and fun happlied => ?_
    refine Ensures.bind (ensures_onEngine (f := note effect) fun _ => rfl) fun _ =>
      ih.mono (fun _ h => h) ?_ ?_
    · rintro _ m ⟨c', effects, hrest, h⟩
      exact ⟨c', effect :: effects, happlied.cons hrest, h⟩
    · rintro _ m ⟨c', p, hedits, h⟩
      exact ⟨c', p, happlied.edits.trans hedits, h⟩

end Apply

structure Committed (cfg : Config) (lower upper : Nat) (changes : List Change) (w : World)
    (report : Report) (w' : World) : Prop where
  offsets : checkOffsets lower upper none (inOrder changes) = .ok ()
  applied : ∃ effects, Applied cfg.space w.content (inOrder changes) effects w'.content ∧
    report.applied = effects.countP Effect.isChanged ∧
    report.registrations = effects.flatMap Effect.tasks
  committed : report.committed = ((inOrder changes).getLast?.map Change.offset).getD lower
  cursors : w'.cursors = { w.cursors with
    cursors := w.cursors.cursors.put
      { w.cursors.current cfg.owner with localOffset := report.committed }
    calls := w.cursors.calls + 2 }
  registry : w'.registry = w.registry

structure Failed (cfg : Config) (w w' : World) : Prop where
  edits : Content.Edits cfg.space w.content w'.content
  cursors : (w'.content = w.content ∧ w'.cursors = w.cursors) ∨
    ∃ s : CursorStore, s.cursors = w.cursors.cursors ∧ s.outage = w.cursors.outage ∧
      w'.cursors = s.afterReset cfg.owner
  registry : w'.registry = w.registry

theorem Failed.early (cfg : Config) (w : World) (p : Progress) :
    Failed cfg w { w with progress := p } :=
  ⟨.refl, .inl ⟨rfl, rfl⟩, rfl⟩

/-- A cycle that has failed under way, before it resets the cursor. -/
def Interrupted (cfg : Config) (w w' : World) : Prop :=
  Content.Edits cfg.space w.content w'.content ∧ w'.cursors.cursors = w.cursors.cursors ∧
    w'.cursors.outage = w.cursors.outage ∧ w'.registry = w.registry

theorem ensures_commit (lower upper : Nat) (cancelled : Bool) (changes : List Change)
    (hfresh : w.progress = .none) :
    Ensures (·.world = w) (commit cfg lower upper cancelled (inOrder changes))
      (fun committed m => ∃ w', (∀ p, w'.progress = p → Committed cfg lower upper changes w
        ⟨lower, upper, committed, p.applied, p.skipped, p.tasks⟩ w') ∧ m.world = w')
      (fun _ m => Interrupted cfg w m.world) := by
  refine Ensures.bind (.ofExcept (Q := fun _ m =>
    checkOffsets lower upper none (inOrder changes) = .ok () ∧ m.world = w)
    (fun _ _ hoffsets h => ⟨hoffsets, h⟩) fun _ _ _ h => h ▸ ⟨.refl, rfl, rfl, rfl⟩)
    fun _ => .of_and fun hoffsets => ?_
  refine Ensures.bind ((ensures_applyAll cancelled (inOrder changes)).mono_error ?_) fun _ => ?_
  · rintro _ m ⟨c, p, hedits, h⟩
    exact h ▸ ⟨hedits, rfl, rfl, rfl⟩
  refine .of_exists fun c => .of_exists fun effects => .of_and fun happlied => ?_
  refine Ensures.bind ((ensures_onCursors (CursorStore.ensures_revise _ _ _)).mono_error ?_)
    fun _ => .pure ?_
  · rintro _ m ⟨s, hrefused, h⟩
    exact h ▸ ⟨happlied.edits, hrefused.cursors, hrefused.outage, rfl⟩
  rintro m ⟨s, rfl, h⟩
  refine ⟨_, fun p hp => ?_, h⟩
  rw [hfresh] at hp
  obtain rfl := (tally_eq effects).symm.trans hp
  exact ⟨hoffsets, ⟨effects, happlied, rfl, rfl⟩, rfl, rfl, rfl⟩

theorem ensures_conclude (phase : Phase) (error : Option SyncError)
    {E : SyncError → Replica → Prop} :
    Ensures (·.world = w) (conclude phase error) (fun _ m => m.world = w) E :=
  ensures_onEngine (f := id) fun _ => rfl

theorem ensures_update (remote : Remote) (lower upper : Nat) :
    Ensures (·.world = w) (update cfg remote lower upper)
      (fun report m => ∃ changes, (remote.changes lower upper).changes = .ok changes ∧
        Committed cfg lower upper changes w report m.world)
      (fun _ m => Failed cfg w m.world) := by
  have hearly (m : Replica) (h : m.world = w) : Failed cfg w m.world := h ▸ .early cfg w w.progress
  unfold update
  refine ensures_get.bind fun m => .of_and fun _ => ?_
  extract_lets phase run
  have hrun (u : Unit) : Ensures (·.world = w) (run u)
      (fun report m => ∃ changes, (remote.changes lower upper).changes = .ok changes ∧
        Committed cfg lower upper changes w report m.world)
      (fun _ m => Failed cfg w m.world) := by
    refine Ensures.bind (ensures_onEngine (f := id) fun _ => rfl) fun _ =>
      Ensures.bind (ensures_ask _ _) fun batch => .of_and fun hbatch => ?_
    subst hbatch
    cases hchanges : (remote.changes lower upper).changes with
    | error e =>
      exact Ensures.bind (ensures_onEngine (f := id) fun _ => rfl) fun _ => .throw hearly
    | ok changes =>
      refine Ensures.bind (ensures_onEngine (f := fun _ => .none) fun _ => rfl) fun _ => ?_
      refine Ensures.bind (R := fun ending m => ∃ report, ending = .error report ∧
        Committed cfg lower upper changes w report m.world) ?_ ?_
      · refine Ensures.tryCatch (R := fun _ m => Interrupted cfg w m.world) ?_ fun e => ?_
        · refine (ensures_commit lower upper _ changes rfl).bind fun committed =>
            .of_exists fun w' => ?_
          refine .of_and fun hcommitted => Ensures.bind (ensures_conclude _ _) fun _ =>
            Ensures.bind ensures_get fun now => .of_and fun hnow => .pure fun m h => ?_
          obtain ⟨hoffsets, happlied, hoffset, hcursors, hregistry⟩ :=
            hcommitted now.engine.progress (hnow ▸ rfl)
          exact ⟨_, rfl, h ▸ ⟨hoffsets, happlied, hoffset, hcursors, hregistry⟩⟩
        · refine ensures_of_world fun w' hinterrupted => ?_
          obtain ⟨hedits, hcursors, houtage, hregistry⟩ := hinterrupted
          refine Ensures.bind (ensures_attempt_reset cfg.owner) fun _ =>
            Ensures.bind (ensures_conclude _ _) fun _ => .throw_bind fun m h => ?_
          exact h ▸ ⟨hedits, .inr ⟨w'.cursors, hcursors, houtage, rfl⟩, hregistry⟩
      · rintro ending m ⟨report, rfl, hcommitted⟩
        exact ⟨changes, rfl, hcommitted⟩
  split
  · exact .throw_bind hearly
  · exact hrun ()

/-- After a failure the cursor stands at the start, or no content has changed, exactly if a content
change was not met by a refused reset of a cursor that stood further on. -/
theorem update_error_keeps_or_restarts_iff {remote : Remote} {lower upper : Nat}
    {m m' : Replica} {e : SyncError} (h : update cfg remote lower upper m = .error e m') :
    (m'.store.content = m.store.content ∨ m'.cursors.AtStart cfg.owner) ↔
      (m'.store.content = m.store.content ∨ m.cursors.AtStart cfg.owner ∨
        m.cursors.outage (m'.cursors.calls - 1) (.set (.fresh cfg.context cfg.consumer)) =
          false) := by
  have hended : (m'.store.content = m.store.content ∧ m'.cursors = m.cursors) ∨
      ∃ s : CursorStore, s.cursors = m.cursors.cursors ∧ s.outage = m.cursors.outage ∧
        m'.cursors = s.afterReset cfg.owner :=
    ((ensures_update remote lower upper).of_error rfl h).cursors
  obtain ⟨hcontent, -⟩ | ⟨s, hcursors, houtage, hreset⟩ := hended
  · exact iff_of_true (.inl hcontent) (.inl hcontent)
  have hcalls : m'.cursors.calls - 1 = s.calls := by
    rw [hreset]
    rfl
  refine or_congr_right ?_
  rw [hcalls, ← houtage, ← CursorStore.atStart_congr hcursors, hreset]
  cases hrefused : s.outage s.calls (.set (.fresh cfg.context cfg.consumer)) with
  | false => exact iff_of_true (CursorStore.afterReset_atStart hrefused) (.inr rfl)
  | true =>
    have hkept : (s.afterReset cfg.owner).cursors = s.cursors := if_pos hrefused
    rw [CursorStore.atStart_congr hkept]
    simp

section Unwritable

def unwritable (cursor : Cursor) : CursorStore where
  cursors := Cursors.put .empty cursor
  outage _ request := match request with
    | .get _ => false
    | .set _ => true
  calls := 0

def onlyRule : Resource :=
  let document := .object [("id", .string "r")]
  ⟨.rule, document, .standard, none, Digest.ofDocument document⟩

/-- A replica of one rule, followed up to offset ten, whose cursor cannot be written. -/
def stuck : Replica :=
  { Replica.of (Content.file .empty onlyRule) .empty with
    cursors := unwritable ⟨"consumer", "context", 10, 10, ""⟩ }

def deleting : Remote where
  consumer := .ok ⟨"consumer", "context", 11, none, 0⟩
  changes _ _ := ⟨.ok [.deletion 11 "r"], false⟩
  snapshot _ := .error .io

theorem update_stuck : ∃ e m', update (.new "context" "consumer" "") deleting 10 11 stuck =
    .error e m' ∧ m'.store.content.size = 0 ∧ m'.cursors.cursors = stuck.cursors.cursors := by
  have hends : (match update (.new "context" "consumer" "") deleting 10 11 stuck with
      | .error _ m' => m'.store.content.size == 0 && m'.cursors.cursors == stuck.cursors.cursors
      | .ok _ _ => false) = true := by
    decide +kernel
  cases h : update (.new "context" "consumer" "") deleting 10 11 stuck with
  | ok report m' =>
    rw [h] at hends
    cases hends
  | error e m' =>
    rw [h] at hends
    obtain ⟨hsize, hcursors⟩ := Bool.and_eq_true_iff.mp hends
    exact ⟨e, m', rfl, beq_iff_eq.mp hsize, beq_iff_eq.mp hcursors⟩

/-- The rule is gone, yet the next cycle goes on from offset ten. -/
theorem stuck_neither_keeps_nor_restarts : ∃ e m',
    update (.new "context" "consumer" "") deleting 10 11 stuck = .error e m' ∧
      m'.store.content ≠ stuck.store.content ∧ ¬ m'.cursors.AtStart ⟨"context", "consumer"⟩ := by
  obtain ⟨e, m', h, hsize, hcursors⟩ := update_stuck
  refine ⟨e, m', h, ?_, ?_⟩
  · intro hkept
    rw [hkept] at hsize
    cases hsize
  · intro hstart
    rw [CursorStore.atStart_congr hcursors] at hstart
    cases hstart _ rfl

theorem stuck_keeps_or_restarts_iff : ∃ e m',
    update (.new "context" "consumer" "") deleting 10 11 stuck = .error e m' ∧
      ((m'.store.content = stuck.store.content ∨ m'.cursors.AtStart ⟨"context", "consumer"⟩) ↔
        (m'.store.content = stuck.store.content ∨
          stuck.cursors.AtStart ⟨"context", "consumer"⟩ ∨
          stuck.cursors.outage (m'.cursors.calls - 1) (.set (.fresh "context" "consumer")) =
            false)) := by
  obtain ⟨e, m', h, -, -⟩ := update_stuck
  exact ⟨e, m', h, update_error_keeps_or_restarts_iff h⟩

end Unwritable

end ContentSpaces.Cycle
