import ContentSpaces.Proofs.Cycle

/-!
# The course of a batch

Changes are applied one after the other up to the first that fails. Applying a change works on the
store alone, so what a batch comes to depends on nothing else, and a batch in two parts comes to
what its second part makes of the outcome of the first. On a store that answers every call, it is
the content that decides.
-/

namespace ContentSpaces

namespace Replica

variable {α β : Type}

def ofStore (run : EStateM SyncError Store α) : ReplicaM α := fun m =>
  match run m.store with
  | .ok a s => .ok a { m with store := s }
  | .error e s => .error e { m with store := s }

def bare (s : Store) : Replica := { Replica.of .empty .empty with store := s }

def storeRun (act : ReplicaM α) : EStateM SyncError Store α := fun s =>
  match act (bare s) with
  | .ok a m => .ok a m.store
  | .error e m => .error e m.store

def StoreOnly (act : ReplicaM α) : Prop := ∃ run, act = ofStore run

theorem storeRun_ofStore (run : EStateM SyncError Store α) : storeRun (ofStore run) = run := by
  funext s
  unfold storeRun ofStore
  show (match (match run s with
    | .ok a s' => EStateM.Result.ok a { bare s with store := s' }
    | .error e s' => .error e { bare s with store := s' }) with
    | .ok a m => EStateM.Result.ok a m.store
    | .error e m => .error e m.store) = run s
  cases run s with
  | ok a s' => rfl
  | error e s' => rfl

namespace StoreOnly

theorem eq_ofStore {act : ReplicaM α} (h : StoreOnly act) : act = ofStore (storeRun act) := by
  obtain ⟨run, rfl⟩ := h
  rw [storeRun_ofStore]

theorem pure (a : α) : StoreOnly (pure a) := ⟨fun s => .ok a s, rfl⟩

theorem throw (e : SyncError) : StoreOnly (throw e : ReplicaM α) := ⟨fun s => .error e s, rfl⟩

theorem onStore (act : StoreM α) : StoreOnly (onStore act) := by
  refine ⟨storeRun (Replica.onStore act), ?_⟩
  funext m
  have hbare : (bare m.store).store = m.store := rfl
  simp only [Replica.onStore, ofStore, storeRun, hbare]
  cases act m.store with
  | ok a s => rfl
  | error e s => rfl

theorem bind {first : ReplicaM β} {next : β → ReplicaM α} (hfirst : StoreOnly first)
    (hnext : ∀ b, StoreOnly (next b)) : StoreOnly (first >>= next) := by
  obtain ⟨run, rfl⟩ := hfirst
  refine ⟨run >>= fun b => storeRun (next b), ?_⟩
  funext m
  show EStateM.bind (ofStore run) next m = ofStore (EStateM.bind run _) m
  simp only [EStateM.bind, ofStore]
  cases run m.store with
  | error e s => rfl
  | ok b s => exact congrFun (hnext b).eq_ofStore { m with store := s }

end StoreOnly

end Replica

namespace Cycle

open Replica

variable {σ : Type} {space : Space} {cancelled : Bool}

/-- What applying changes in turn comes to: the effects of those applied, the state they lead to,
and what went wrong with the next one. -/
structure Course (σ : Type) where
  effects : List Effect
  state : σ
  failure : Option SyncError

namespace Course

def prepend (effects : List Effect) (run : Course σ) : Course σ :=
  { run with effects := effects ++ run.effects }

def withState {τ : Type} (run : Course σ) (state : τ) : Course τ :=
  ⟨run.effects, state, run.failure⟩

@[simp] theorem failure_prepend (effects : List Effect) (run : Course σ) :
    (run.prepend effects).failure = run.failure := rfl

@[simp] theorem failure_withState {τ : Type} (run : Course σ) (state : τ) :
    (run.withState state).failure = run.failure := rfl

end Course

/-- A cancelled batch fails at its first change. -/
def course (step : Change → EStateM SyncError σ Effect) (cancelled : Bool) :
    List Change → σ → Course σ
  | [], s => ⟨[], s, none⟩
  | change :: changes, s =>
    if cancelled then ⟨[], s, some .cancelled⟩
    else
      match step change s with
      | .error e s' => ⟨[], s', some e⟩
      | .ok effect s' => (course step cancelled changes s').prepend [effect]

section Laws

variable {step : Change → EStateM SyncError σ Effect}

/-- What comes after a part that fails is not reached. -/
theorem course_append_of_failure {xs : List Change} (ys : List Change) {s : σ} {e : SyncError}
    (h : (course step cancelled xs s).failure = some e) :
    course step cancelled (xs ++ ys) s = course step cancelled xs s := by
  induction xs generalizing s with
  | nil => cases h
  | cons x xs ih =>
    rw [List.cons_append, course, course]
    rw [course] at h
    cases cancelled with
    | true => rfl
    | false =>
      simp only [Bool.false_eq_true, if_false] at h ⊢
      cases hstep : step x s with
      | error e' s' => rfl
      | ok effect s' =>
        rw [hstep] at h
        simp only [Course.prepend] at h ⊢
        rw [ih h]

/-- A part that goes through hands its state on to the rest. -/
theorem course_append_of_none {xs : List Change} (ys : List Change) {s : σ}
    (h : (course step cancelled xs s).failure = none) :
    course step cancelled (xs ++ ys) s =
      (course step cancelled ys (course step cancelled xs s).state).prepend
        (course step cancelled xs s).effects := by
  induction xs generalizing s with
  | nil => rfl
  | cons x xs ih =>
    rw [List.cons_append, course, course]
    rw [course] at h
    cases cancelled with
    | true => cases h
    | false =>
      simp only [Bool.false_eq_true, if_false] at h ⊢
      cases hstep : step x s with
      | error e' s' =>
        rw [hstep] at h
        cases h
      | ok effect s' =>
        rw [hstep] at h
        simp only [Course.prepend] at h ⊢
        rw [ih h]
        rfl

/-- Without a failure every change has had its effect. -/
theorem length_effects_course {changes : List Change} {s : σ}
    (h : (course step cancelled changes s).failure = none) :
    (course step cancelled changes s).effects.length = changes.length := by
  induction changes generalizing s with
  | nil => rfl
  | cons x xs ih =>
    rw [course] at h ⊢
    cases cancelled with
    | true => cases h
    | false =>
      simp only [Bool.false_eq_true, if_false] at h ⊢
      cases hstep : step x s with
      | error e' s' =>
        rw [hstep] at h
        cases h
      | ok effect s' =>
        rw [hstep] at h
        simp only [Course.prepend] at h ⊢
        rw [List.length_append, ih h]
        exact Nat.add_comm 1 xs.length

end Laws

section OverStores

def locateTarget (space : Space) (change : Change) : ReplicaM Address := do
  match ← onStore (Store.locate space change.resource) with
  | some kind => return ⟨kind, space, change.resource⟩
  | none => throw (.protocol (.unknownTarget change.offset change.resource))

theorem storeOnly_locateTarget (change : Change) : StoreOnly (locateTarget space change) := by
  refine .bind (.onStore _) fun found => ?_
  cases found with
  | some kind => exact .pure _
  | none => exact .throw _

theorem storeOnly_updateTarget (change : Change) : StoreOnly (updateTarget space change) := by
  unfold updateTarget
  split
  · refine .bind (.onStore _) fun policy => ?_
    cases policy with
    | some policy => exact .pure _
    | none => exact storeOnly_locateTarget change
  · exact storeOnly_locateTarget change

theorem storeOnly_apply (change : Change) : StoreOnly (apply space change) := by
  unfold apply
  split
  · split
    · exact .throw _
    · split
      · exact .pure _
      · exact .onStore _
  · exact .bind (storeOnly_updateTarget change) fun target => .bind (.onStore _) fun r => .pure _
  · exact .onStore _

def storeCourse (space : Space) (cancelled : Bool) : List Change → Store → Course Store :=
  course (fun change => storeRun (apply space change)) cancelled

def Course.replica (run : Course Store) (m : Replica) : Replica :=
  { m with
    store := run.state
    engine := { m.engine with
      progress := run.effects.foldl (fun p effect => note effect p) m.engine.progress } }

theorem applyAll_eq (changes : List Change) (m : Replica) :
    applyAll space cancelled changes m =
      let run := storeCourse space cancelled changes m.store
      match run.failure with
      | none => .ok () (run.replica m)
      | some e => .error e (run.replica m) := by
  -- The progress is noted between two changes, and no change looks at it.
  induction changes generalizing m with
  | nil => rfl
  | cons change changes ih =>
    unfold applyAll storeCourse course
    cases cancelled with
    | true => rfl
    | false =>
      simp only [Bool.false_eq_true, if_false]
      show EStateM.bind (apply space change) _ m = _
      rw [(storeOnly_apply change).eq_ofStore, storeRun_ofStore]
      unfold EStateM.bind ofStore
      cases hstep : storeRun (apply space change) m.store with
      | error e s => rfl
      | ok effect s =>
        show EStateM.bind (onEngine _) _ _ = _
        unfold EStateM.bind
        exact ih _

end OverStores

end Cycle

namespace Content

variable {space : Space}

def locate? (c : Content) (space : Space) (id : String) : Option Kind :=
  Kind.all.find? fun kind => (c.get? ⟨kind, space, id⟩).isSome

def target? (c : Content) (space : Space) (resource : String) : Option Address :=
  match if resource = Cycle.policyAlias then c.policy? space else none with
  | some policy => some ⟨.policy, space, policy.id⟩
  | none => (c.locate? space resource).map fun kind => ⟨kind, space, resource⟩

/-- What a change does to content, or why it cannot be applied. -/
def apply (space : Space) (change : Change) : EStateM SyncError Content Cycle.Effect := fun c =>
  match change.kind with
  | .create =>
    match change.payload with
    | none => .error (.protocol (.missingPayload change.offset)) c
    | some payload =>
      match payload.kind? with
      | none => .ok .skipped c
      | some kind =>
        match Resource.ingest kind space payload.document with
        | .error e => .error (.content e) c
        | .ok r => .ok (.changed (Task.upsert? r)) (c.file r)
  | .update =>
    match c.target? space change.resource with
    | none => .error (.protocol (.unknownTarget change.offset change.resource)) c
    | some target =>
      match c.get? target with
      | none => .error (.content (.notFound target)) c
      | some current =>
        match current.applyPatch change.operations with
        | .error e => .error (.content e) c
        | .ok r => .ok (.changed (Task.upsert? r)) (c.file r)
  | .delete =>
    match c.locate? space change.resource with
    | none => .ok .skipped c
    | some kind =>
      .ok (.changed (Task.delete? kind change.resource)) (c.erase ⟨kind, space, change.resource⟩)

end Content

namespace Store

variable {c : Content} {E : ContentError → Store → Prop}

theorem ensures_of_answers {α : Type} {act : StoreM α} {f : Content → α} (hreads : Reads act f)
    (hanswers : Answers act) : Ensures (fun s => s.content = c ∧ s.Up) act
      (fun a s => a = f c ∧ s.content = c ∧ s.Up) E := by
  refine ((hreads c).and hanswers).mono (fun _ h => h) ?_ ?_
  · rintro a s ⟨⟨ha, hs⟩, hup⟩
    exact ⟨ha, hs, hup⟩
  · rintro _ _ ⟨-, hfalse⟩
    exact hfalse.elim

theorem ensures_create_answered (r : Resource) :
    Ensures (fun s => s.content = c ∧ s.Up) (create r)
      (fun _ s => s.content = c.file r ∧ s.Up) E :=
  ((ensures_create r c).and (Answers.call _ _)).mono (fun _ h => h) (fun _ _ h => h)
    fun _ _ h => h.2.elim

theorem ensures_delete_answered (a : Address) :
    Ensures (fun s => s.content = c ∧ s.Up) (delete a)
      (fun _ s => s.content = c.erase a ∧ s.Up) E :=
  ((ensures_delete a c).and (Answers.call _ _)).mono (fun _ h => h) (fun _ _ h => h)
    fun _ _ h => h.2.elim

/-- On a store that answers, an update fails for want of a resource or of an applicable patch. -/
theorem ensures_update_answered (a : Address) (ops : List Patch.Operation) :
    Ensures (fun s => s.content = c ∧ s.Up) (update a ops)
      (fun r' s => ∃ r, c.get? a = some r ∧ r.applyPatch ops = .ok r' ∧
        s.content = c.file r' ∧ s.Up)
      (fun e s => (c.get? a = none ∧ e = .notFound a ∨
        ∃ r, c.get? a = some r ∧ r.applyPatch ops = .error e) ∧ s.content = c ∧ s.Up) := by
  have hget : Ensures (fun s => s.content = c ∧ s.Up) (get? a)
      (fun found s => found = c.get? a ∧ s.content = c ∧ s.Up) (fun _ _ => False) :=
    ensures_of_answers (reads_get? a) (.call _ _)
  refine Ensures.bind (R := fun r s => c.get? a = some r ∧ s.content = c ∧ s.Up) ?_ fun r =>
    .of_and fun hr => ?_
  · refine (hget.mono_error fun _ _ => False.elim).bind fun found => .of_and fun hfound => ?_
    cases found with
    | none => exact .throw fun _ hs => ⟨.inl ⟨hfound.symm, rfl⟩, hs⟩
    | some r => exact .pure fun _ hs => ⟨hfound.symm, hs⟩
  · refine Ensures.bind (.ofExcept (Q := fun r' s =>
      r.applyPatch ops = .ok r' ∧ s.content = c ∧ s.Up) (fun _ _ hr' hs => ⟨hr', hs⟩)
      fun _ _ he hs => ⟨.inr ⟨r, hr, he⟩, hs⟩) fun r' => .of_and fun hr' => ?_
    exact (ensures_create_answered r').bind fun _ => .pure fun _ hs => ⟨r, hr, hr', hs⟩

end Store

namespace Cycle

open Replica

variable {space : Space} {cancelled : Bool} {w : World}

section OverContent

theorem ensures_onStore_answered {α : Type} {act : StoreM α} {c : Content}
    {Q : α → Content → Prop} {E : ContentError → Content → Prop}
    (h : Ensures (fun s => s.content = c ∧ s.Up) act (fun a s => Q a s.content ∧ s.Up)
      (fun e s => E e s.content ∧ s.Up)) :
    Ensures (fun m => m.store.content = c ∧ m.store.Up) (onStore act)
      (fun a m => Q a m.store.content ∧ m.store.Up)
      (fun e m => ∃ e', e = .content e' ∧ E e' m.store.content ∧ m.store.Up) := by
  intro m hm
  unfold onStore
  cases hr : act m.store with
  | ok a s => exact h.of_ok hm hr
  | error e s => exact ⟨e, rfl, h.of_error hm hr⟩

/-- Reading leaves the content alone and fails on no store that answers. -/
theorem ensures_read_answered {α : Type} {act : StoreM α} {f : Content → α} {c : Content}
    {E : SyncError → Replica → Prop} (hreads : Store.Reads act f) (hanswers : Store.Answers act) :
    Ensures (fun m => m.store.content = c ∧ m.store.Up) (onStore act)
      (fun a m => a = f c ∧ m.store.content = c ∧ m.store.Up) E := by
  refine (ensures_onStore_answered (Q := fun a c' => a = f c ∧ c' = c) (E := fun _ _ => False)
    ((Store.ensures_of_answers hreads hanswers).mono_ok ?_)).mono (fun _ h => h) ?_ ?_
  · rintro a s ⟨ha, hs, hup⟩
    exact ⟨⟨ha, hs⟩, hup⟩
  · rintro a m ⟨⟨ha, hm⟩, hup⟩
    exact ⟨ha, hm, hup⟩
  · rintro _ _ ⟨_, -, hfalse, -⟩
    exact hfalse.elim

theorem ensures_locateTarget_answered (change : Change) {c : Content}
    (htarget : c.target? space change.resource =
      (c.locate? space change.resource).map fun kind => ⟨kind, space, change.resource⟩) :
    Ensures (fun m => m.store.content = c ∧ m.store.Up) (locateTarget space change)
      (fun a m => c.target? space change.resource = some a ∧ m.store.content = c ∧ m.store.Up)
      (fun e m => (c.target? space change.resource = none ∧
        e = .protocol (.unknownTarget change.offset change.resource)) ∧
          m.store.content = c ∧ m.store.Up) := by
  rw [htarget]
  refine (ensures_read_answered (Store.reads_locateAmong space change.resource Kind.all)
    (Store.answers_locate space change.resource)).bind fun found => .of_and fun hfound => ?_
  replace hfound : c.locate? space change.resource = found := hfound.symm
  rw [hfound]
  cases found with
  | some kind => exact .pure fun _ hm => ⟨rfl, hm⟩
  | none => exact .throw fun _ hm => ⟨⟨rfl, rfl⟩, hm⟩

theorem ensures_updateTarget_answered (change : Change) {c : Content} :
    Ensures (fun m => m.store.content = c ∧ m.store.Up) (updateTarget space change)
      (fun a m => c.target? space change.resource = some a ∧ m.store.content = c ∧ m.store.Up)
      (fun e m => (c.target? space change.resource = none ∧
        e = .protocol (.unknownTarget change.offset change.resource)) ∧
          m.store.content = c ∧ m.store.Up) := by
  unfold updateTarget
  split
  · rename_i halias
    refine (ensures_read_answered (Store.reads_policy? space)
      (Store.answers_policy? space)).bind fun policy => .of_and fun hpolicy => ?_
    replace hpolicy : c.policy? space = policy := hpolicy.symm
    cases policy with
    | some r =>
      refine .pure fun _ hm => ⟨?_, hm⟩
      rw [Content.target?, if_pos halias, hpolicy]
    | none =>
      refine ensures_locateTarget_answered change ?_
      rw [Content.target?, if_pos halias, hpolicy]
  · rename_i halias
    refine ensures_locateTarget_answered change ?_
    rw [Content.target?, if_neg halias]

theorem ensures_ingest_answered {change : Change} (hkind : change.kind = .create)
    {payload : Payload} (hpayload : change.payload = some payload) {kind : Kind}
    (hknown : payload.kind? = some kind) (c : Content) :
    Ensures (fun s => s.content = c ∧ s.Up)
      (do
        let r ← ofExcept (Resource.ingest kind space payload.document)
        Store.create r
        return .changed (Task.upsert? r) : StoreM Effect)
      (fun effect s => Content.apply space change c = .ok effect s.content ∧ s.Up)
      (fun e s => Content.apply space change c = .error (.content e) s.content ∧ s.Up) := by
  have happly (x : Except ContentError Resource)
      (hx : Resource.ingest kind space payload.document = x) : Content.apply space change c =
      match x with
      | .error e => .error (.content e) c
      | .ok r => .ok (.changed (Task.upsert? r)) (c.file r) := by
    simp only [Content.apply, hkind, hpayload, hknown, hx]
    cases x <;> rfl
  refine Ensures.bind (.ofExcept (Q := fun r s =>
    Resource.ingest kind space payload.document = .ok r ∧ s.content = c ∧ s.Up)
    (fun _ _ hr hs => ⟨hr, hs⟩) ?_) fun r => .of_and fun hr => ?_
  · rintro e s he ⟨rfl, hup⟩
    exact ⟨happly _ he, hup⟩
  · refine (Store.ensures_create_answered r).bind fun _ => .pure fun s hs => ?_
    obtain ⟨hcontent, hup⟩ := hs
    rw [happly _ hr, hcontent]
    exact ⟨rfl, hup⟩

theorem ensures_remove_answered {change : Change} (hkind : change.kind = .delete) (c : Content) :
    Ensures (fun s => s.content = c ∧ s.Up)
      (do
        match ← Store.locate space change.resource with
        | none => return .skipped
        | some kind =>
          let _ ← Store.delete ⟨kind, space, change.resource⟩
          return .changed (Task.delete? kind change.resource) : StoreM Effect)
      (fun effect s => Content.apply space change c = .ok effect s.content ∧ s.Up)
      (fun e s => Content.apply space change c = .error (.content e) s.content ∧ s.Up) := by
  refine (Store.ensures_of_answers (Store.reads_locateAmong space change.resource Kind.all)
    (Store.answers_locate space change.resource)).bind fun found => .of_and fun hfound => ?_
  replace hfound : c.locate? space change.resource = found := hfound.symm
  cases found with
  | none =>
    refine .pure ?_
    rintro s ⟨rfl, hup⟩
    simp [Content.apply, hkind, hfound, hup]
  | some kind =>
    refine (Store.ensures_delete_answered _).bind fun _ => .pure ?_
    rintro s ⟨hcontent, hup⟩
    rw [hcontent]
    simp [Content.apply, hkind, hfound, hup]

theorem ensures_apply_onStore {change : Change} {c : Content} {act : StoreM Effect}
    (h : Ensures (fun s => s.content = c ∧ s.Up) act
      (fun effect s => Content.apply space change c = .ok effect s.content ∧ s.Up)
      (fun e s => Content.apply space change c = .error (.content e) s.content ∧ s.Up)) :
    Ensures (fun m => m.store.content = c ∧ m.store.Up) (onStore act)
      (fun effect m => Content.apply space change c = .ok effect m.store.content ∧ m.store.Up)
      (fun e m => Content.apply space change c = .error e m.store.content ∧ m.store.Up) := by
  refine (ensures_onStore_answered
    (Q := fun effect c' => Content.apply space change c = .ok effect c')
    (E := fun e c' => Content.apply space change c = .error (.content e) c') h).mono_error ?_
  rintro _ m ⟨e, rfl, h⟩
  exact h

/-- On a store that answers, applying a change does to the content what it does by itself. -/
theorem ensures_apply_answered (space : Space) (change : Change) (c : Content) :
    Ensures (fun m => m.store.content = c ∧ m.store.Up) (apply space change)
      (fun effect m => Content.apply space change c = .ok effect m.store.content ∧ m.store.Up)
      (fun e m => Content.apply space change c = .error e m.store.content ∧ m.store.Up) := by
  unfold apply
  cases hkind : change.kind with
  | create =>
    simp only
    cases hpayload : change.payload with
    | none =>
      refine .throw ?_
      rintro m ⟨rfl, hup⟩
      simp [Content.apply, hkind, hpayload, hup]
    | some payload =>
      simp only
      cases hknown : payload.kind? with
      | none =>
        refine .pure ?_
        rintro m ⟨rfl, hup⟩
        simp [Content.apply, hkind, hpayload, hknown, hup]
      | some kind =>
        exact ensures_apply_onStore (ensures_ingest_answered hkind hpayload hknown c)
  | update =>
    refine Ensures.bind ((ensures_updateTarget_answered change).mono_error ?_) fun target =>
      .of_and fun htarget => ?_
    · rintro _ m ⟨⟨hnone, rfl⟩, rfl, hup⟩
      simp [Content.apply, hkind, hnone, hup]
    · refine Ensures.bind ((ensures_onStore_answered
        (Q := fun r c' => ∃ current, c.get? target = some current ∧
          current.applyPatch change.operations = .ok r ∧ c' = c.file r)
        (E := fun e c' => Content.apply space change c = .error (.content e) c')
        ((Store.ensures_update_answered target change.operations).mono (fun _ hs => hs) ?_
          ?_)).mono_error ?_) fun r => .pure ?_
      · rintro r s ⟨current, hstored, hpatch, hcontent, hup⟩
        exact ⟨⟨current, hstored, hpatch, hcontent⟩, hup⟩
      · rintro e s ⟨⟨hnone, rfl⟩ | ⟨current, hstored, hpatch⟩, rfl, hup⟩
        · simp [Content.apply, hkind, htarget, hnone, hup]
        · simp [Content.apply, hkind, htarget, hstored, hpatch, hup]
      · rintro _ m ⟨e, rfl, h⟩
        exact h
      · rintro m ⟨⟨current, hstored, hpatch, hcontent⟩, hup⟩
        rw [hcontent]
        simp [Content.apply, hkind, htarget, hstored, hpatch, hup]
  | delete =>
    exact ensures_apply_onStore (ensures_remove_answered hkind c)

/-- On a store that answers, changes take the course that the content gives them. -/
theorem storeCourse_of_up (space : Space) (cancelled : Bool) (changes : List Change) {s : Store}
    (hs : s.Up) :
    ∃ s', s'.Up ∧ s'.content = (course (Content.apply space) cancelled changes s.content).state ∧
      storeCourse space cancelled changes s =
        (course (Content.apply space) cancelled changes s.content).withState s' := by
  induction changes generalizing s with
  | nil => exact ⟨s, hs, rfl, rfl⟩
  | cons change changes ih =>
    have hstep := ensures_apply_answered space change s.content (bare s) ⟨rfl, hs⟩
    unfold storeCourse course
    cases cancelled with
    | true => exact ⟨s, hs, rfl, rfl⟩
    | false =>
      simp only [Bool.false_eq_true, if_false]
      unfold storeRun
      cases hr : apply space change (bare s) with
      | error e m =>
        rw [hr] at hstep
        obtain ⟨happly, hup⟩ := hstep
        rw [happly]
        exact ⟨m.store, hup, rfl, rfl⟩
      | ok effect m =>
        rw [hr] at hstep
        obtain ⟨happly, hup⟩ := hstep
        obtain ⟨s', hup', hcontent, hcourse⟩ := ih hup
        rw [happly]
        refine ⟨s', hup', hcontent, ?_⟩
        show (storeCourse space false changes m.store).prepend [effect] = _
        rw [hcourse]
        rfl

end OverContent

end Cycle

end ContentSpaces
