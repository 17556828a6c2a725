import ContentSpaces.Proofs.Store

/-!
# Calls of a replica

The world is what of a replica its calls work on: the content, the progress of the present cycle,
the cursors and the registry. A call on one of them leaves the others as they are.
-/

namespace ContentSpaces

structure World where
  content : Content
  progress : Progress
  cursors : CursorStore
  registry : Registry

def Replica.world (m : Replica) : World :=
  ⟨m.store.content, m.engine.progress, m.cursors, m.registry⟩

theorem Cursors.get?_put (cs : Cursors) (cursor : Cursor) :
    (cs.put cursor).get? cursor.owner = some cursor := by
  rw [put, Table.get?_insert, if_pos rfl]

namespace CursorStore

variable {s s' : CursorStore} {owner : Consumer}

def current (s : CursorStore) (owner : Consumer) : Cursor :=
  (s.cursors.get? owner).getD (.fresh owner.context owner.name)

/-- No cursor of the consumer stands above offset zero. -/
def AtStart (s : CursorStore) (owner : Consumer) : Prop :=
  ∀ cursor, s.cursors.get? owner = some cursor → cursor.localOffset = 0

def Up (s : CursorStore) : Prop := ∀ n request, s.outage n request = false

/-- The cursors are as they were, because some call is refused. -/
structure Refused (s s' : CursorStore) : Prop where
  cursors : s'.cursors = s.cursors
  outage : s'.outage = s.outage
  refusal : ∃ n request, s.outage n request = true

theorem Up.not_refused (hs : s.Up) : ¬ s.Refused s' := by
  rintro ⟨-, -, n, request, h⟩
  rw [hs n request] at h
  cases h

def afterReset (s : CursorStore) (owner : Consumer) : CursorStore :=
  let fresh := Cursor.fresh owner.context owner.name
  { s with
    cursors := if s.outage s.calls (.set fresh) then s.cursors else s.cursors.put fresh
    calls := s.calls + 1 }

theorem Up.cursors_afterReset (hs : s.Up) : (s.afterReset owner).cursors =
    s.cursors.put (.fresh owner.context owner.name) := if_neg (by simp [hs s.calls])

theorem afterReset_atStart (h : s.outage s.calls (.set (.fresh owner.context owner.name)) = false) :
    (s.afterReset owner).AtStart owner := by
  intro cursor hcursor
  have hput : (s.afterReset owner).cursors =
      s.cursors.put (.fresh owner.context owner.name) := if_neg (by simp [h])
  have hown := Cursors.get?_put s.cursors (.fresh owner.context owner.name)
  rw [hput] at hcursor
  cases hcursor.symm.trans hown
  rfl

theorem atStart_congr (h : s'.cursors = s.cursors) : s'.AtStart owner ↔ s.AtStart owner := by
  rw [AtStart, AtStart, h]

theorem ensures_getOrFresh (owner : Consumer) (s : CursorStore) :
    Ensures (· = s) (getOrFresh owner)
      (fun cursor s' => cursor = s.current owner ∧ s' = { s with calls := s.calls + 1 })
      (fun _ s' => s.Refused s') := by
  intro s' hs
  subst hs
  cases h : s'.outage s'.calls (.get owner) with
  | true =>
    simp only [getOrFresh, get?, call, bind, EStateM.bind, h, if_true]
    exact ⟨rfl, rfl, _, _, h⟩
  | false =>
    simp only [getOrFresh, get?, call, bind, EStateM.bind, h]
    exact ⟨rfl, rfl⟩

theorem ensures_set (cursor : Cursor) (s : CursorStore) :
    Ensures (· = s) (set cursor)
      (fun _ s' => s.outage s.calls (.set cursor) = false ∧
        s' = { s with cursors := s.cursors.put cursor, calls := s.calls + 1 })
      (fun _ s' => s.outage s.calls (.set cursor) = true ∧ s' = { s with calls := s.calls + 1 }) := by
  intro s' hs
  subst hs
  cases h : s'.outage s'.calls (.set cursor) with
  | true => simp [set, call, h]
  | false => simp [set, call, h]

theorem ensures_revise (owner : Consumer) (change : Cursor → Cursor) (s : CursorStore) :
    Ensures (· = s) (revise owner change)
      (fun _ s' =>
        s' = { s with cursors := s.cursors.put (change (s.current owner)), calls := s.calls + 2 })
      (fun _ s' => s.Refused s') := by
  refine (ensures_getOrFresh owner s).bind fun cursor => .of_and fun hcursor => ?_
  subst hcursor
  refine (ensures_set _ _).mono (fun _ h => h) (fun _ _ h => h.2) fun _ s' h => ?_
  obtain ⟨hrefused, rfl⟩ := h
  exact ⟨rfl, rfl, _, _, hrefused⟩

def Owned (s : CursorStore) (owner : Consumer) : Prop :=
  ∀ cursor, s.cursors.get? owner = some cursor → cursor.owner = owner

theorem Owned.owner_current (h : s.Owned owner) : (s.current owner).owner = owner := by
  unfold current
  cases hcursor : s.cursors.get? owner with
  | none => rfl
  | some cursor => exact h cursor hcursor

theorem get?_of_put {cursor : Cursor} (h : s'.cursors = s.cursors.put cursor)
    (howner : cursor.owner = owner) : s'.cursors.get? owner = some cursor := by
  rw [h, ← howner]
  exact Cursors.get?_put ..

theorem current_of_put {cursor : Cursor} (h : s'.cursors = s.cursors.put cursor)
    (howner : cursor.owner = owner) : s'.current owner = cursor := by
  rw [current, get?_of_put h howner]
  rfl

theorem owned_of_put {cursor : Cursor} (h : s'.cursors = s.cursors.put cursor)
    (howner : cursor.owner = owner) : s'.Owned owner := by
  intro cursor' hcursor'
  cases (get?_of_put h howner).symm.trans hcursor'
  exact howner

end CursorStore

namespace World

def read (w : World) : World :=
  { w with cursors := { w.cursors with calls := w.cursors.calls + 1 } }

def record (w : World) (owner : Consumer) (remoteOffset : Nat) : World :=
  { w with cursors := { w.cursors with
    cursors := w.cursors.cursors.put { w.cursors.current owner with remoteOffset := remoteOffset }
    calls := w.cursors.calls + 2 } }

end World

namespace Replica

variable {α : Type} {w : World}

theorem ensures_of_world {P : World → Prop} {act : ReplicaM α} {Q : α → Replica → Prop}
    {E : SyncError → Replica → Prop} (h : ∀ w, P w → Ensures (·.world = w) act Q E) :
    Ensures (fun m => P m.world) act Q E := fun m hm => h _ hm m rfl

theorem ensures_onStore {act : StoreM α} {Q : α → Content → Prop} {E : Content → Prop}
    (h : Ensures (·.content = w.content) act (fun a s => Q a s.content)
      (fun _ s => E s.content)) :
    Ensures (·.world = w) (onStore act)
      (fun a m => ∃ c, Q a c ∧ m.world = { w with content := c })
      (fun _ m => ∃ c, E c ∧ m.world = { w with content := c }) := by
  intro m hm
  subst hm
  unfold onStore
  cases hr : act m.store with
  | ok a s => exact ⟨s.content, h.of_ok rfl hr, rfl⟩
  | error e s => exact ⟨s.content, h.of_error rfl hr, rfl⟩

theorem ensures_onStore_of_reads {act : StoreM α} {f : Content → α} (h : Store.Reads act f) :
    Ensures (·.world = w) (onStore act) (fun a m => a = f w.content ∧ m.world = w)
      (fun _ m => m.world = w) := by
  refine (ensures_onStore (Q := fun a c => a = f w.content ∧ c = w.content)
    (E := fun c => c = w.content) (h w.content)).mono (fun _ h => h) ?_ ?_
  · rintro a m ⟨c, ⟨ha, rfl⟩, hm⟩
    exact ⟨ha, hm⟩
  · rintro e m ⟨c, rfl, hm⟩
    exact hm

theorem ensures_onStore_of_up {act : StoreM α} {φ : Prop}
    (h : Ensures (fun s => s.content = w.content ∧ s.Up) act (fun _ s => s.Up) (fun _ _ => φ)) :
    Ensures (fun m => m.world = w ∧ m.store.Up) (onStore act) (fun _ m => m.store.Up)
      (fun _ _ => φ) := by
  rintro m ⟨rfl, hup⟩
  unfold onStore
  cases hr : act m.store with
  | ok a s => exact h.of_ok ⟨rfl, hup⟩ hr
  | error e s => exact h.of_error ⟨rfl, hup⟩ hr

theorem ensures_onStore_of_answers {act : StoreM α} {f : Content → α} (h : Store.Reads act f)
    (hup : Store.Answers act) {E : SyncError → Replica → Prop} :
    Ensures (fun m => m.world = w ∧ m.store.Up) (onStore act)
      (fun a m => a = f w.content ∧ m.world = w ∧ m.store.Up) E := by
  have hanswered := ensures_onStore_of_up (w := w) (hup.of_content w.content)
  refine ((ensures_onStore_of_reads h).and hanswered).mono (fun m hm => ⟨hm.1, hm⟩) ?_ ?_
  · rintro a m ⟨⟨ha, hm⟩, hup⟩
    exact ⟨ha, hm, hup⟩
  · rintro e m ⟨-, hfalse⟩
    exact hfalse.elim

theorem ensures_onStore_of_ensures {act : StoreM α} {P : Store → Prop} {Q : α → Store → Prop}
    {E : Store → Prop} (h : Ensures P act Q fun _ => E) :
    Ensures (fun m => P m.store) (onStore act) (fun a m => Q a m.store) fun _ m => E m.store := by
  intro m hm
  unfold onStore
  cases hr : act m.store with
  | ok a s => exact h.of_ok hm hr
  | error e s => exact h.of_error hm hr

theorem keeps_onCursors {I : Store → Prop} (act : CursorM α) :
    Keeps (fun m => I m.store) (onCursors act) fun _ => True := by
  intro m hm
  unfold onCursors
  cases act m.cursors with
  | ok a cursors => exact ⟨trivial, hm⟩
  | error e cursors => exact hm

theorem ensures_onCursors {act : CursorM α} {Q : α → CursorStore → Prop}
    {E : SyncError → CursorStore → Prop} (h : Ensures (· = w.cursors) act Q E) :
    Ensures (·.world = w) (onCursors act)
      (fun a m => ∃ s, Q a s ∧ m.world = { w with cursors := s })
      (fun e m => ∃ s, E e s ∧ m.world = { w with cursors := s }) := by
  intro m hm
  subst hm
  unfold onCursors
  cases hr : act m.cursors with
  | ok a s => exact ⟨s, h.of_ok rfl hr, rfl⟩
  | error e s => exact ⟨s, h.of_error rfl hr, rfl⟩

theorem ensures_onEngine {change : Engine → Engine} {f : Progress → Progress}
    {E : SyncError → Replica → Prop} (h : ∀ e, (change e).progress = f e.progress) :
    Ensures (·.world = w) (onEngine change)
      (fun _ m => m.world = { w with progress := f w.progress }) E := by
  refine .modify fun m hm => ?_
  subst hm
  show World.mk _ (change m.engine).progress _ _ = _
  rw [h]
  rfl

theorem ensures_ask (request : RemoteRequest) (answer : α) {E : SyncError → Replica → Prop} :
    Ensures (·.world = w) (ask request answer) (fun a m => a = answer ∧ m.world = w) E :=
  Ensures.bind (R := fun _ m => m.world = w) (.modify fun _ h => h) fun _ =>
    .pure fun _ h => ⟨rfl, h⟩

theorem ensures_get {E : SyncError → Replica → Prop} :
    Ensures (·.world = w) (get : ReplicaM Replica) (fun now m => now.world = w ∧ m.world = w) E :=
  fun _ h => ⟨h, h⟩

theorem ensures_attempt {P : Replica → Prop} {Q : Replica → Prop} {act : ReplicaM α}
    {E : SyncError → Replica → Prop} (h : Ensures P act (fun _ => Q) (fun _ => Q)) :
    Ensures P (attempt act) (fun _ => Q) E :=
  Ensures.tryCatch (h.bind fun _ => .pure fun _ h => h) fun _ => .pure fun _ h => h

theorem ensures_attempt_reset (owner : Consumer) {E : SyncError → Replica → Prop} :
    Ensures (·.world = w) (attempt (onCursors (CursorStore.reset owner)))
      (fun _ m => m.world = { w with cursors := w.cursors.afterReset owner }) E := by
  refine ensures_attempt ((ensures_onCursors (CursorStore.ensures_set _ _)).mono (fun _ h => h)
    ?_ ?_)
  · rintro _ m ⟨s, ⟨hanswered, rfl⟩, hm⟩
    simpa [CursorStore.afterReset, hanswered] using hm
  · rintro _ m ⟨s, ⟨hrefused, rfl⟩, hm⟩
    simpa [CursorStore.afterReset, hrefused] using hm

end Replica

end ContentSpaces
