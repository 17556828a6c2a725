import ContentSpaces.Proofs.Cycle.Course
import ContentSpaces.Proofs.Replay

/-!
# How a cycle ends

A cycle whose changes do not come in leaves everything as it was. One whose changes have come in
checks their offsets, lets them take their course in offset order, and then moves the cursor or
resets it. The order in which they came in makes no difference.
-/

namespace ContentSpaces

namespace CursorStore

variable {s : CursorStore} {owner : Consumer}

def revised (s : CursorStore) (owner : Consumer) (change : Cursor → Cursor) : CursorStore :=
  { s with cursors := s.cursors.put (change (s.current owner)), calls := s.calls + 2 }

theorem Up.revise_eq (hs : s.Up) (owner : Consumer) (change : Cursor → Cursor) :
    revise owner change s = .ok () (s.revised owner change) := by
  have h := ensures_revise owner change s
  cases hr : revise owner change s with
  | ok u s' => rw [h.of_ok rfl hr, revised]
  | error e s' => exact absurd (h.of_error rfl hr) hs.not_refused

end CursorStore

theorem Cursors.get?_put_of_ne {cs : Cursors} {cursor : Cursor} {other : Consumer}
    (h : other ≠ cursor.owner) : (cs.put cursor).get? other = cs.get? other := by
  rw [put, Table.get?_insert, if_neg h]

namespace Cycle

open Replica

variable {cfg : Config} {space : Space} {remote : Remote} {lower upper : Nat}
  {changes xs ys : List Change} {cancelled : Bool} {m : Replica}

section Offsets

/-- The offsets differ and lie above one bound, up to the other. -/
structure Orderly (lower upper : Nat) (changes : List Change) : Prop where
  bounds : ∀ c ∈ changes, lower < c.offset ∧ c.offset ≤ upper
  distinct : (changes.map Change.offset).Nodup

theorem Orderly.of_perm (h : Orderly lower upper xs) (hperm : ys.Perm xs) :
    Orderly lower upper ys := by
  constructor
  · intro c hc
    exact h.bounds c (hperm.mem_iff.mp hc)
  · exact (hperm.map Change.offset).nodup_iff.mpr h.distinct

theorem checkOffsets_congr {last : Option Nat}
    (h : xs.map Change.offset = ys.map Change.offset) :
    checkOffsets lower upper last xs = checkOffsets lower upper last ys := by
  induction xs generalizing ys last with
  | nil =>
    obtain rfl := List.map_eq_nil_iff.mp h.symm
    rfl
  | cons x xs ih =>
    cases ys with
    | nil => cases h
    | cons y ys =>
      obtain ⟨hhead, htail⟩ := List.cons.inj h
      rw [checkOffsets, checkOffsets, hhead, ih htail]

theorem checkOffsets_eq_error {last : Option Nat} {e : SyncError}
    (h : checkOffsets lower upper last changes = .error e) : ∃ p, e = .protocol p := by
  induction changes generalizing last with
  | nil => cases h
  | cons c cs ih =>
    rw [checkOffsets] at h
    split at h
    · cases h
      exact ⟨_, rfl⟩
    · split at h
      · cases h
        exact ⟨_, rfl⟩
      · exact ih h

/-- On ascending offsets the check of neighbours is a check of all. -/
theorem checkOffsets_eq_ok_iff (last : Option Nat)
    (h : (last.toList ++ changes.map Change.offset).Pairwise (· ≤ ·)) :
    checkOffsets lower upper last changes = .ok () ↔
      (∀ c ∈ changes, lower < c.offset ∧ c.offset ≤ upper) ∧
        (last.toList ++ changes.map Change.offset).Pairwise (· < ·) := by
  -- The offset before the first change goes along, for it is what the first one is held against.
  induction changes generalizing last with
  | nil => cases last <;> simp [checkOffsets]
  | cons c cs ih =>
    have hrest : (c.offset :: cs.map Change.offset).Pairwise (· ≤ ·) :=
      (List.pairwise_append.mp h).2.1
    rw [checkOffsets]
    split
    · rename_i houtside
      refine iff_of_false nofun fun hok => ?_
      have hbounds := hok.1 c List.mem_cons_self
      omega
    · rename_i hinside
      split
      · rename_i hlast
        subst hlast
        refine iff_of_false nofun fun hok => ?_
        have hlt := List.rel_of_pairwise_cons hok.2 (List.mem_cons_self : c.offset ∈ _)
        omega
      · rename_i hlast
        rw [ih (some c.offset) hrest, List.forall_mem_cons]
        have hbounds : lower < c.offset ∧ c.offset ≤ upper := by omega
        simp only [hbounds, true_and, and_congr_right_iff, and_self]
        intro _
        cases last with
        | none => rfl
        | some offset =>
          refine (and_iff_right_of_imp fun hpairwise a ha => ?_).symm.trans List.pairwise_cons.symm
          have hle : offset ≤ c.offset :=
            List.rel_of_pairwise_cons h (List.mem_cons_self : c.offset ∈ _)
          have hne : offset ≠ c.offset := fun heq => hlast (congrArg some heq)
          obtain rfl | ha := List.mem_cons.mp ha
          · omega
          · have hlt : c.offset < a := List.rel_of_pairwise_cons hpairwise ha
            omega

theorem map_offset_inOrder_of_perm (h : xs.Perm ys) :
    (inOrder xs).map Change.offset = (inOrder ys).map Change.offset := by
  have hsorted (zs : List Change) : ((inOrder zs).map Change.offset).Pairwise (· ≤ ·) :=
    List.pairwise_map.mpr (pairwise_inOrder zs)
  have hperm : (inOrder xs).Perm (inOrder ys) :=
    (perm_inOrder xs).trans (h.trans (perm_inOrder ys).symm)
  refine (hperm.map Change.offset).eq_of_pairwise (fun a b _ _ hab hba => ?_) (hsorted xs)
    (hsorted ys)
  omega

theorem checkOffsets_inOrder_eq_ok_iff :
    checkOffsets lower upper none (inOrder changes) = .ok () ↔ Orderly lower upper changes := by
  have hsorted : ((inOrder changes).map Change.offset).Pairwise (· ≤ ·) :=
    List.pairwise_map.mpr (pairwise_inOrder changes)
  have hperm := perm_inOrder changes
  rw [checkOffsets_eq_ok_iff none hsorted]
  show _ ∧ ((inOrder changes).map Change.offset).Pairwise (· < ·) ↔ _
  constructor
  · rintro ⟨hbounds, hascending⟩
    refine Orderly.of_perm ⟨hbounds, hascending.imp Nat.ne_of_lt⟩ hperm.symm
  · intro h
    obtain ⟨hbounds, hdistinct⟩ := h.of_perm hperm
    refine ⟨hbounds, (hsorted.and hdistinct).imp ?_⟩
    rintro a b ⟨hle, hne⟩
    omega

end Offsets

section Endings

def begun (lower upper : Nat) (m : Replica) : Replica :=
  { m with
    engine := { m.engine with phase := .applying, progress := .none }
    requests := m.requests ++ [.changes lower upper] }

def ended (phase : Phase) (error : Option SyncError) (m : Replica) : Replica :=
  { m with engine := { m.engine with
      phase := phase
      statistics := concluded m.engine.statistics m.engine.progress error } }

def restarted (owner : Consumer) (m : Replica) : Replica :=
  { m with cursors := m.cursors.afterReset owner }

def moved (owner : Consumer) (offset : Nat) (m : Replica) : Replica :=
  { m with cursors := m.cursors.revised owner fun c => { c with localOffset := offset } }

theorem attempt_reset (owner : Consumer) (m : Replica) :
    attempt (onCursors (CursorStore.reset owner)) m = .ok () (restarted owner m) := by
  unfold attempt
  simp only [bind, EStateM.bind, tryCatch, tryCatchThe, MonadExceptOf.tryCatch, EStateM.tryCatch,
    onCursors, CursorStore.reset, CursorStore.set, CursorStore.call, CursorStore.afterReset,
    restarted]
  cases m.cursors.outage m.cursors.calls (.set (.fresh owner.context owner.name)) with
  | true => rfl
  | false => rfl

theorem update_of_unanswered (hstart : m.engine.phase.canStart = true) {e : SyncError}
    (hbatch : (remote.changes lower upper).changes = .error e) :
    update cfg remote lower upper m = .error e { m with
      engine := { m.engine with
        phase := .idle
        statistics := { m.engine.statistics with lastError := some e } }
      requests := m.requests ++ [.changes lower upper] } := by
  unfold update
  simp only [bind, EStateM.bind, get_apply, hstart, Bool.not_true, Bool.false_eq_true, if_false,
    onEngine, modify_apply, ask, pure, EStateM.pure, hbatch]
  rfl

/-- Once its changes have come in, a cycle commits them or resets the cursor. -/
theorem update_of_answered (hstart : m.engine.phase.canStart = true)
    (hbatch : remote.changes lower upper = ⟨.ok changes, cancelled⟩) :
    update cfg remote lower upper m =
      match commit cfg lower upper cancelled (inOrder changes) (begun lower upper m) with
      | .ok committed m' =>
        let p := m'.engine.progress
        .ok ⟨lower, upper, committed, p.applied, p.skipped, p.tasks⟩ (ended .committed none m')
      | .error e m' => .error e (ended .reset (some e) (restarted cfg.owner m')) := by
  unfold update
  simp only [bind, EStateM.bind, get_apply, hstart, Bool.not_true, Bool.false_eq_true, if_false,
    onEngine, modify_apply, ask, pure, EStateM.pure, hbatch, tryCatch, tryCatchThe,
    MonadExceptOf.tryCatch, EStateM.tryCatch]
  simp only [begun]
  cases commit cfg lower upper cancelled (inOrder changes) _ with
  | ok committed m' => rfl
  | error e m' =>
    -- Catching an error restores nothing: what the batch has done stays.
    simp only [EStateM.Backtrackable.restore, EStateM.dummyRestore, attempt_reset]
    rfl

theorem commit_of_error {e : SyncError} (h : checkOffsets lower upper none xs = .error e) :
    commit cfg lower upper cancelled xs m = .error e m := by
  unfold commit
  rw [h]
  rfl

theorem commit_of_ok (cfg : Config) (cancelled : Bool)
    (h : checkOffsets lower upper none xs = .ok ()) (hcursors : m.cursors.Up) :
    commit cfg lower upper cancelled xs m =
      let run := storeCourse cfg.space cancelled xs m.store
      let offset := (xs.getLast?.map Change.offset).getD lower
      match run.failure with
      | none => .ok offset (moved cfg.owner offset (run.replica m))
      | some e => .error e (run.replica m) := by
  unfold commit
  rw [h]
  show EStateM.bind (applyAll cfg.space cancelled xs) _ m = _
  cases hfailure : (storeCourse cfg.space cancelled xs m.store).failure with
  | some e => simp only [EStateM.bind, applyAll_eq, hfailure]
  | none =>
    simp only [EStateM.bind, applyAll_eq, hfailure]
    have hrevise := hcursors.revise_eq cfg.owner fun c =>
      { c with localOffset := (xs.getLast?.map Change.offset).getD lower }
    show EStateM.bind (onCursors _) _ _ = _
    simp only [EStateM.bind, onCursors, Course.replica, hrevise]
    rfl

def Course.report (run : Course Store) (lower upper committed : Nat) : Report :=
  let p := tally run.effects
  ⟨lower, upper, committed, p.applied, p.skipped, p.tasks⟩

theorem Course.applied_add_skipped (run : Course Store) (lower upper committed : Nat) :
    (run.report lower upper committed).applied + (run.report lower upper committed).skipped =
      run.effects.length := by
  unfold Course.report
  rw [tally_eq, List.length_eq_countP_add_countP Effect.isChanged]
  simp

def Course.ending (run : Course Store) (cfg : Config) (lower upper committed : Nat) (m : Replica) :
    EStateM.Result SyncError Replica Report :=
  let m' := run.replica (begun lower upper m)
  match run.failure with
  | none =>
    .ok (run.report lower upper committed) (ended .committed none (moved cfg.owner committed m'))
  | some e => .error e (ended .reset (some e) (restarted cfg.owner m'))

theorem Course.ending_of_none {run : Course Store} (h : run.failure = none) (cfg : Config)
    (lower upper committed : Nat) (m : Replica) : run.ending cfg lower upper committed m =
      .ok (run.report lower upper committed) (ended .committed none
        (moved cfg.owner committed (run.replica (begun lower upper m)))) := by
  rw [ending, h]

theorem Course.ending_of_some {run : Course Store} {e : SyncError} (h : run.failure = some e)
    (cfg : Config) (lower upper committed : Nat) (m : Replica) :
    run.ending cfg lower upper committed m =
      .error e (ended .reset (some e)
        (restarted cfg.owner (run.replica (begun lower upper m)))) := by
  rw [ending, h]

theorem update_of_not_orderly (cfg : Config) (hstart : m.engine.phase.canStart = true)
    (hbatch : remote.changes lower upper = ⟨.ok changes, cancelled⟩)
    (h : ¬ Orderly lower upper changes) : ∃ p, update cfg remote lower upper m =
      .error (.protocol p)
        (ended .reset (some (.protocol p)) (restarted cfg.owner (begun lower upper m))) := by
  rw [update_of_answered hstart hbatch]
  cases hchecked : checkOffsets lower upper none (inOrder changes) with
  | ok u => exact absurd (checkOffsets_inOrder_eq_ok_iff.mp hchecked) h
  | error e =>
    obtain ⟨p, rfl⟩ := checkOffsets_eq_error hchecked
    rw [commit_of_error hchecked]
    exact ⟨p, rfl⟩

/-- A cycle over changes with offsets in order takes the course of its batch. -/
theorem update_of_orderly (cfg : Config) (hstart : m.engine.phase.canStart = true)
    (hcursors : m.cursors.Up)
    (hbatch : remote.changes lower upper = ⟨.ok changes, cancelled⟩)
    (h : Orderly lower upper changes) : update cfg remote lower upper m =
      (storeCourse cfg.space cancelled (inOrder changes) m.store).ending cfg lower upper
        (lastOffset lower changes) m := by
  have hbegun : (begun lower upper m).cursors.Up := hcursors
  have hcommit := commit_of_ok cfg cancelled (checkOffsets_inOrder_eq_ok_iff.mpr h) hbegun
  have hstore : (begun lower upper m).store = m.store := rfl
  rw [update_of_answered hstart hbatch, hcommit, hstore]
  cases hfailure : (storeCourse cfg.space cancelled (inOrder changes) m.store).failure with
  | none =>
    rw [Course.ending_of_none hfailure]
    simp only [hfailure]
    rfl
  | some e =>
    rw [Course.ending_of_some hfailure]
    simp only [hfailure]

end Endings

theorem lastOffset_eq_max? (lower : Nat) (changes : List Change) :
    lastOffset lower changes = ((changes.map Change.offset).max?).getD lower := by
  obtain ⟨rfl, h⟩ | ⟨c, hc, h⟩ := lastOffset_eq_or_mem lower changes
  · exact h
  · have hmax : (changes.map Change.offset).max? = some c.offset := by
      rw [List.max?_eq_some_iff]
      constructor
      · exact List.mem_map_of_mem hc
      · intro offset hoffset
        obtain ⟨c', hc', rfl⟩ := List.mem_map.mp hoffset
        have hle := offset_le_lastOffset lower hc'
        omega
    rw [hmax, h, Option.getD_some]

section Outcomes

/-- How a cycle leaves the content, the cursors and the engine. -/
structure Leaves (owner : Consumer) (content : Content) (cursor : Cursor) (phase : Phase)
    (m m' : Replica) : Prop where
  content : m'.store.content = content
  cursor : m'.cursors.cursors.get? owner = some cursor
  others : ∀ other, other ≠ owner → m'.cursors.cursors.get? other = m.cursors.cursors.get? other
  phase : m'.engine.phase = phase

variable {m' : Replica} {owner : Consumer}

theorem leaves_restarted (m' : Replica) (hcursors : m.cursors.Up)
    (h : m'.cursors = m.cursors) (e : SyncError) :
    Leaves owner m'.store.content (.fresh owner.context owner.name) .reset m
      (ended .reset (some e) (restarted owner m')) := by
  have hput : (m'.cursors.afterReset owner).cursors =
      m.cursors.cursors.put (.fresh owner.context owner.name) := by
    rw [h]
    exact hcursors.cursors_afterReset
  refine ⟨rfl, CursorStore.get?_of_put hput rfl, fun other hother => ?_, rfl⟩
  show (m'.cursors.afterReset owner).cursors.get? other = _
  rw [hput]
  exact Cursors.get?_put_of_ne hother

theorem leaves_moved (m' : Replica) (howned : m.cursors.Owned owner) (h : m'.cursors = m.cursors)
    (offset : Nat) :
    Leaves owner m'.store.content { m.cursors.current owner with localOffset := offset } .committed
      m (ended .committed none (moved owner offset m')) := by
  have hput : (moved owner offset m').cursors.cursors =
      m.cursors.cursors.put { m.cursors.current owner with localOffset := offset } := by
    rw [← h]
    rfl
  have howner : Cursor.owner { m.cursors.current owner with localOffset := offset } = owner :=
    howned.owner_current
  refine ⟨rfl, CursorStore.get?_of_put hput howner, fun other hother => ?_, rfl⟩
  show (moved owner offset m').cursors.cursors.get? other = _
  rw [hput]
  exact Cursors.get?_put_of_ne (howner.symm ▸ hother)

/-- The order in which changes come in does not show in what the cycle does. -/
theorem update_eq_of_perm (hstart : m.engine.phase.canStart = true)
    (hbatch : remote.changes lower upper = ⟨.ok xs, cancelled⟩) {remote' : Remote}
    (hbatch' : remote'.changes lower upper = ⟨.ok ys, cancelled⟩) (hperm : xs.Perm ys) :
    update cfg remote lower upper m = update cfg remote' lower upper m := by
  rw [update_of_answered hstart hbatch, update_of_answered hstart hbatch']
  by_cases horderly : Orderly lower upper ys
  · have hsame : inOrder xs = inOrder ys := eq_inOrder_of_perm horderly.distinct (fun _ hc => hc)
      (pairwise_inOrder xs) ((perm_inOrder xs).trans hperm)
    rw [hsame]
  · have hchecked : checkOffsets lower upper none (inOrder xs) =
        checkOffsets lower upper none (inOrder ys) :=
      checkOffsets_congr (map_offset_inOrder_of_perm hperm)
    cases herror : checkOffsets lower upper none (inOrder ys) with
    | ok u => exact absurd (checkOffsets_inOrder_eq_ok_iff.mp herror) horderly
    | error e => rw [commit_of_error herror, commit_of_error (hchecked.trans herror)]

theorem ascending_inOrder (h : Orderly lower upper changes) :
    (inOrder changes).Pairwise fun a b => a.offset < b.offset := by
  have hdistinct := (h.of_perm (perm_inOrder changes)).distinct
  refine ((pairwise_inOrder changes).and (List.pairwise_map.mp hdistinct)).imp ?_
  rintro a b ⟨hle, hne⟩
  omega

def batchCourse (space : Space) (cancelled : Bool) (changes : List Change) (c : Content) :
    Course Content :=
  course (Content.apply space) cancelled (inOrder changes) c

section Answered

variable (hstart : m.engine.phase.canStart = true) (hstore : m.store.Up) (hcursors : m.cursors.Up)
  (hbatch : remote.changes lower upper = ⟨.ok changes, cancelled⟩)
  (horderly : Orderly lower upper changes)

include hstart hstore hcursors hbatch horderly

/-- On a store that answers, the content decides how a cycle ends. -/
theorem update_eq_ending (cfg : Config) : ∃ s : Store,
    s.content = (batchCourse cfg.space cancelled changes m.store.content).state ∧
    update cfg remote lower upper m =
      ((batchCourse cfg.space cancelled changes m.store.content).withState s).ending cfg lower upper
        (lastOffset lower changes) m := by
  obtain ⟨s, -, hcontent, hcourse⟩ := storeCourse_of_up cfg.space cancelled (inOrder changes) hstore
  refine ⟨s, hcontent, ?_⟩
  rw [update_of_orderly cfg hstart hcursors hbatch horderly, hcourse]
  rfl

theorem leaves_of_failure {e : SyncError}
    (h : (batchCourse cfg.space cancelled changes m.store.content).failure = some e) :
    ∃ m', update cfg remote lower upper m = .error e m' ∧
      Leaves cfg.owner (batchCourse cfg.space cancelled changes m.store.content).state
        (.fresh cfg.context cfg.consumer) .reset m m' := by
  obtain ⟨s, hcontent, hupdate⟩ := update_eq_ending hstart hstore hcursors hbatch horderly cfg
  rw [Course.ending_of_some ((Course.failure_withState _ s).trans h)] at hupdate
  refine ⟨_, hupdate, ?_⟩
  rw [← hcontent]
  exact leaves_restarted (((batchCourse cfg.space cancelled changes m.store.content).withState
    s).replica (begun lower upper m)) hcursors rfl e

theorem leaves_of_none (howned : m.cursors.Owned cfg.owner)
    (h : (batchCourse cfg.space cancelled changes m.store.content).failure = none) :
    ∃ report m', update cfg remote lower upper m = .ok report m' ∧
      Leaves cfg.owner (batchCourse cfg.space cancelled changes m.store.content).state
        { m.cursors.current cfg.owner with
          localOffset := (changes.map Change.offset).max?.getD lower }
        .committed m m' ∧
      report.applied + report.skipped = changes.length := by
  obtain ⟨s, hcontent, hupdate⟩ := update_eq_ending hstart hstore hcursors hbatch horderly cfg
  rw [Course.ending_of_none ((Course.failure_withState _ s).trans h)] at hupdate
  refine ⟨_, _, hupdate, ?_, ?_⟩
  · rw [← hcontent, ← lastOffset_eq_max?]
    exact leaves_moved (((batchCourse cfg.space cancelled changes m.store.content).withState
      s).replica (begun lower upper m)) howned rfl _
  · rw [Course.applied_add_skipped, ← (perm_inOrder changes).length_eq]
    exact length_effects_course h

end Answered

/-- What a cycle comes to for every answer to its request. Changes that do not come in leave
everything as it was, misplaced ones are refused before any is applied, and the others take their
course in the order of their offsets. -/
theorem update_outcome (cfg : Config) (remote : Remote) (lower upper : Nat) {m : Replica}
    (hstart : m.engine.phase.canStart = true) (hstore : m.store.Up) (hcursors : m.cursors.Up)
    (howned : m.cursors.Owned cfg.owner) :
    match remote.changes lower upper with
    | ⟨.error e, _⟩ => ∃ m', update cfg remote lower upper m = .error e m' ∧
        m'.store.content = m.store.content ∧ m'.cursors.cursors = m.cursors.cursors ∧
        m'.engine.phase = .idle
    | ⟨.ok changes, cancelled⟩ =>
      let fresh := Cursor.fresh cfg.context cfg.consumer
      (¬ Orderly lower upper changes → ∃ p m',
        update cfg remote lower upper m = .error (.protocol p) m' ∧
          Leaves cfg.owner m.store.content fresh .reset m m') ∧
      (Orderly lower upper changes → ∃ ordered : List Change, ordered.Perm changes ∧
        ordered.Pairwise (fun a b => a.offset < b.offset) ∧
        let run := course (Content.apply cfg.space) cancelled ordered m.store.content
        match run.failure with
        | some e => ∃ m', update cfg remote lower upper m = .error e m' ∧
            Leaves cfg.owner run.state fresh .reset m m'
        | none => ∃ report m', update cfg remote lower upper m = .ok report m' ∧
            Leaves cfg.owner run.state
              { m.cursors.current cfg.owner with
                localOffset := (changes.map Change.offset).max?.getD lower }
              .committed m m' ∧
            report.applied + report.skipped = changes.length) ∧
      ∀ (remote' : Remote) (changes' : List Change), changes'.Perm changes →
        remote'.changes lower upper = ⟨.ok changes', cancelled⟩ →
        update cfg remote' lower upper m = update cfg remote lower upper m := by
  split
  · rename_i e cancelled hbatch
    refine ⟨_, update_of_unanswered hstart ?_, rfl, rfl, rfl⟩
    rw [hbatch]
  · rename_i changes cancelled hbatch
    intro fresh
    refine ⟨fun hmisplaced => ?_, fun horderly => ?_, fun remote' changes' hperm hbatch' => ?_⟩
    · obtain ⟨p, h⟩ := update_of_not_orderly cfg hstart hbatch hmisplaced
      exact ⟨p, _, h, leaves_restarted (begun lower upper m) hcursors rfl _⟩
    · refine ⟨inOrder changes, perm_inOrder changes, ascending_inOrder horderly, ?_⟩
      intro run
      cases hfailure : run.failure with
      | some e => exact leaves_of_failure hstart hstore hcursors hbatch horderly hfailure
      | none => exact leaves_of_none hstart hstore hcursors hbatch horderly howned hfailure
    · exact update_eq_of_perm hstart hbatch' hbatch hperm

section Trial

def namedDocument (id : String) : Json := .object [("id", .string id)]

def unsorted : List Change :=
  [.creation 2 .decoder (namedDocument "d"), .creation 1 .rule (namedDocument "r")]

def offering (changes : List Change) : Remote where
  consumer := .ok ⟨"consumer", "context", 2, none, 0⟩
  changes _ _ := ⟨.ok changes, false⟩
  snapshot _ := .error .io

theorem unsorted_outcome :
    let cfg := Config.new "context" "consumer" ""
    let m := Replica.of .empty .empty
    ∃ report m', update cfg (offering unsorted) 0 2 m = .ok report m' ∧
      Leaves cfg.owner (course (Content.apply .standard) false unsorted.reverse .empty).state
        ⟨"consumer", "context", 2, 0, ""⟩ .committed m m' ∧
      report.applied + report.skipped = 2 := by
  intro cfg m
  have houtcome := update_outcome cfg (offering unsorted) 0 2 (m := m) rfl (fun _ _ => rfl)
    (fun _ _ => rfl) (fun _ h => nomatch h)
  have horderly : Orderly 0 2 unsorted := ⟨by decide, by decide⟩
  obtain ⟨ordered, hperm, hascending, hended⟩ := houtcome.2.1 horderly
  have hreverse : unsorted.reverse.Pairwise fun a b => a.offset < b.offset := by decide
  obtain rfl : ordered = unsorted.reverse := by
    refine (hperm.trans unsorted.reverse_perm.symm).eq_of_pairwise (fun a b _ _ hab hba => ?_)
      hascending hreverse
    omega
  have hnone : (course (Content.apply .standard) false unsorted.reverse .empty).failure = none := by
    decide +kernel
  dsimp only at hended
  split at hended
  · rename_i e hfailure
    cases hfailure.symm.trans hnone
  · exact hended

end Trial

end Outcomes

end Cycle

end ContentSpaces
