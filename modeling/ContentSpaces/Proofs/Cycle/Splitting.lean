import ContentSpaces.Proofs.Cycle.Outcome

/-!
# Splitting a range

A log may be followed in one cycle or in several over consecutive ranges. Each cycle goes on from
the content that the last one has left, so the pieces come to what the whole comes to: the same
content and tasks, or the same failure.
-/

namespace ContentSpaces

namespace CursorStore

variable {s : CursorStore} {owner : Consumer}

/-- Of two revisions of a cursor the second stands, if it undoes what the first has done. -/
theorem cursors_revised_revised {first second : Cursor → Cursor}
    (hfirst : ∀ c, (first c).owner = c.owner) (hsecond : ∀ c, (second c).owner = c.owner)
    (h : ∀ c, second (first c) = second c) :
    ((s.revised owner first).revised owner second).cursors = (s.revised owner second).cursors := by
  have hcurrent : second ((s.revised owner first).current owner) = second (s.current owner) := by
    by_cases howner : (s.current owner).owner = owner
    · have hput : (s.revised owner first).cursors = s.cursors.put (first (s.current owner)) := rfl
      rw [current_of_put hput ((hfirst _).trans howner), h]
    · have hother : (s.revised owner first).cursors.get? owner = s.cursors.get? owner := by
        apply Cursors.get?_put_of_ne
        rw [hfirst]
        exact Ne.symm howner
      rw [current, hother]
      rfl
  show (s.cursors.put (first (s.current owner))).put (second _) =
    s.cursors.put (second (s.current owner))
  rw [hcurrent]
  apply Table.ext_get?
  intro consumer
  simp only [Cursors.put, Table.get?_insert, hfirst, hsecond]
  split <;> rfl

end CursorStore

namespace Cycle

open Replica

variable {cfg : Config} {remote : Remote} {log : List Change} {lower mid upper : Nat} {m : Replica}

/-- Cycles over consecutive ranges, up to the first that fails. -/
def updateAll (cfg : Config) (remote : Remote) : Nat → List Nat → ReplicaM (List Report)
  | _, [] => return []
  | lower, upper :: bounds => do
    let report ← update cfg remote lower upper
    let reports ← updateAll cfg remote upper bounds
    return report :: reports

/-- A remote that serves the changes of every range of a log, in any order. -/
def Supplies (remote : Remote) (log : List Change) : Prop :=
  ∀ lower upper, ∃ changes, remote.changes lower upper = ⟨.ok changes, false⟩ ∧
    changes.Perm (Feed.Log.range log lower upper)

theorem inOrder_range_append (hlog : (log.map Change.offset).Nodup) (hlower : lower ≤ mid)
    (hupper : mid ≤ upper) : inOrder (Feed.Log.range log lower upper) =
      inOrder (Feed.Log.range log lower mid) ++ inOrder (Feed.Log.range log mid upper) := by
  have hdistinct : ((Feed.Log.range log lower upper).map Change.offset).Nodup :=
    hlog.sublist (List.filter_sublist.map Change.offset)
  rw [inOrder_split hdistinct mid]
  unfold Feed.Log.range
  rw [List.filter_filter, List.filter_filter]
  congr 2
  · refine List.filter_congr fun c _ => ?_
    rw [Bool.eq_iff_iff]
    simp only [decide_eq_true_eq, Bool.and_eq_true]
    omega
  · refine List.filter_congr fun c _ => ?_
    rw [Bool.eq_iff_iff]
    simp only [decide_eq_true_eq, Bool.and_eq_true, Bool.not_eq_true', decide_eq_false_iff_not]
    omega

theorem orderly_range (hlog : (log.map Change.offset).Nodup) :
    Orderly lower upper (Feed.Log.range log lower upper) := by
  constructor
  · intro c hc
    have hrange := (List.mem_filter.mp hc).2
    simpa using hrange
  · exact hlog.sublist (List.filter_sublist.map Change.offset)

def rangeCourse (space : Space) (log : List Change) (lower upper : Nat) (s : Store) :
    Course Store :=
  storeCourse space false (inOrder (Feed.Log.range log lower upper)) s

theorem update_of_supplies (hremote : Supplies remote log) (hlog : (log.map Change.offset).Nodup)
    (hstart : m.engine.phase.canStart = true) (hcursors : m.cursors.Up) :
    update cfg remote lower upper m =
      (rangeCourse cfg.space log lower upper m.store).ending cfg lower upper
        (lastOffset lower (Feed.Log.range log lower upper)) m := by
  obtain ⟨changes, hbatch, hperm⟩ := hremote lower upper
  have hsame := inOrder_of_perm_range hlog hperm
  rw [update_of_orderly cfg hstart hcursors hbatch ((orderly_range hlog).of_perm hperm), hsame,
    lastOffset, hsame]
  rfl

theorem rangeCourse_of_failure (hlog : (log.map Change.offset).Nodup) (hlower : lower ≤ mid)
    (hupper : mid ≤ upper) {space : Space} {s : Store} {e : SyncError}
    (h : (rangeCourse space log lower mid s).failure = some e) :
    rangeCourse space log lower upper s = rangeCourse space log lower mid s := by
  unfold rangeCourse
  rw [inOrder_range_append hlog hlower hupper]
  exact course_append_of_failure _ h

theorem rangeCourse_of_none (hlog : (log.map Change.offset).Nodup) (hlower : lower ≤ mid)
    (hupper : mid ≤ upper) {space : Space} {s : Store}
    (h : (rangeCourse space log lower mid s).failure = none) :
    rangeCourse space log lower upper s =
      (rangeCourse space log mid upper (rangeCourse space log lower mid s).state).prepend
        (rangeCourse space log lower mid s).effects := by
  unfold rangeCourse
  rw [inOrder_range_append hlog hlower hupper]
  exact course_append_of_none _ h

/-- The last offset of two consecutive ranges is the one of the second, unless that is empty. -/
theorem lastOffset_range (hlog : (log.map Change.offset).Nodup) (hlower : lower ≤ mid)
    (hupper : mid ≤ upper) (h : Feed.Log.range log mid upper ≠ []) :
    lastOffset lower (Feed.Log.range log lower upper) =
      lastOffset mid (Feed.Log.range log mid upper) := by
  have hne : inOrder (Feed.Log.range log mid upper) ≠ [] := by
    intro hnil
    exact h (List.Perm.eq_nil (hnil ▸ (perm_inOrder _).symm))
  unfold lastOffset
  rw [inOrder_range_append hlog hlower hupper, List.getLast?_append_of_ne_nil _ hne,
    List.getLast?_eq_some_getLast hne]
  rfl

/-- What a cycle comes to after another, and what one cycle in place of both comes to. -/
def Joined (report : Report) (moving : Prop) :
    EStateM.Result SyncError Replica Report → EStateM.Result SyncError Replica Report → Prop
  | .ok next m, .ok whole m' =>
    m.store = m'.store ∧ whole.applied = report.applied + next.applied ∧
      whole.skipped = report.skipped + next.skipped ∧
      whole.registrations = report.registrations ++ next.registrations ∧
      (moving → m.cursors.cursors = m'.cursors.cursors)
  | .error e m, .error e' m' => e = e' ∧ m.store = m'.store
  | _, _ => False

section Supplied

variable (hremote : Supplies remote log) (hlog : (log.map Change.offset).Nodup)
  (hstart : m.engine.phase.canStart = true) (hcursors : m.cursors.Up)

include hremote hlog hstart hcursors

theorem get?_of_update_error {e : SyncError} {m' : Replica}
    (h : update cfg remote lower upper m = .error e m') :
    m'.cursors.cursors.get? cfg.owner = some (.fresh cfg.context cfg.consumer) := by
  rw [update_of_supplies hremote hlog hstart hcursors] at h
  cases hfailure : (rangeCourse cfg.space log lower upper m.store).failure with
  | none =>
    rw [Course.ending_of_none hfailure] at h
    cases h
  | some e' =>
    rw [Course.ending_of_some hfailure] at h
    cases h
    exact CursorStore.get?_of_put hcursors.cursors_afterReset rfl

/-- If the first of two cycles fails, so does one in place of both. -/
theorem update_eq_error_of_first (hlower : lower ≤ mid) (hupper : mid ≤ upper) {e : SyncError}
    {m₁ : Replica} (h : update cfg remote lower mid m = .error e m₁) :
    ∃ m', update cfg remote lower upper m = .error e m' ∧ m₁.store = m'.store := by
  rw [update_of_supplies hremote hlog hstart hcursors] at h
  rw [update_of_supplies hremote hlog hstart hcursors]
  cases hfailure : (rangeCourse cfg.space log lower mid m.store).failure with
  | none =>
    rw [Course.ending_of_none hfailure] at h
    cases h
  | some e' =>
    rw [Course.ending_of_some hfailure] at h
    cases h
    rw [rangeCourse_of_failure hlog hlower hupper hfailure, Course.ending_of_some hfailure]
    exact ⟨_, rfl, rfl⟩

theorem joined_of_first (hlower : lower ≤ mid) (hupper : mid ≤ upper) {report : Report}
    {m₁ : Replica} (h : update cfg remote lower mid m = .ok report m₁) :
    m₁.engine.phase.canStart = true ∧ m₁.cursors.Up ∧
      Joined report (Feed.Log.range log mid upper ≠ []) (update cfg remote mid upper m₁)
        (update cfg remote lower upper m) := by
  rw [update_of_supplies hremote hlog hstart hcursors] at h
  rw [update_of_supplies hremote hlog hstart hcursors]
  cases hfirst : (rangeCourse cfg.space log lower mid m.store).failure with
  | some e =>
    rw [Course.ending_of_some hfirst] at h
    cases h
  | none =>
    rw [Course.ending_of_none hfirst] at h
    obtain ⟨hreport, hm₁⟩ := EStateM.Result.ok.inj h
    have hstart₁ : m₁.engine.phase.canStart = true := by
      rw [← hm₁]
      rfl
    have hcursors₁ : m₁.cursors.Up := by
      rw [← hm₁]
      exact hcursors
    have hstore₁ : m₁.store = (rangeCourse cfg.space log lower mid m.store).state := by
      rw [← hm₁]
      rfl
    have hmoved : m₁.cursors = m.cursors.revised cfg.owner fun c =>
        { c with localOffset := lastOffset lower (Feed.Log.range log lower mid) } := by
      rw [← hm₁]
      rfl
    refine ⟨hstart₁, hcursors₁, ?_⟩
    -- The second cycle goes on from the store of the first, as the one cycle does at the bound.
    rw [update_of_supplies hremote hlog hstart₁ hcursors₁, hstore₁,
      rangeCourse_of_none hlog hlower hupper hfirst, ← hreport]
    set first := rangeCourse cfg.space log lower mid m.store
    set next := rangeCourse cfg.space log mid upper first.state
    cases hnext : next.failure with
    | some e =>
      rw [Course.ending_of_some hnext, Course.ending_of_some ((next.failure_prepend _).trans hnext)]
      exact ⟨rfl, rfl⟩
    | none =>
      rw [Course.ending_of_none hnext, Course.ending_of_none ((next.failure_prepend _).trans hnext)]
      refine ⟨rfl, ?_, ?_, ?_, fun hmoving => ?_⟩
      · simp [Course.report, Course.prepend, tally_eq]
      · simp [Course.report, Course.prepend, tally_eq]
      · simp [Course.report, Course.prepend, tally_eq]
      · rw [lastOffset_range hlog hlower hupper hmoving]
        show (m₁.cursors.revised cfg.owner _).cursors = (m.cursors.revised cfg.owner _).cursors
        rw [hmoved]
        apply CursorStore.cursors_revised_revised <;> exact fun _ => rfl

end Supplied

/-- What the cycles of a range have come to, after a cycle with this report. -/
def preceded (report : Report) :
    EStateM.Result SyncError Replica (List Report) → EStateM.Result SyncError Replica (List Report)
  | .ok reports m => .ok (report :: reports) m
  | .error e m => .error e m

def total (count : Report → Nat) (reports : List Report) : Nat :=
  reports.foldr (fun report n => count report + n) 0

theorem total_cons (count : Report → Nat) (report : Report) (reports : List Report) :
    total count (report :: reports) = count report + total count reports := rfl

def Agree (owner : Consumer) (moving : Prop) :
    EStateM.Result SyncError Replica (List Report) → EStateM.Result SyncError Replica Report → Prop
  | .ok reports m, .ok report m' =>
    m.store = m'.store ∧ total Report.applied reports = report.applied ∧
      total Report.skipped reports = report.skipped ∧
      reports.flatMap Report.registrations = report.registrations ∧
      (moving → m.cursors.cursors = m'.cursors.cursors)
  | .error e m, .error e' m' =>
    let fresh := Cursor.fresh owner.context owner.name
    e = e' ∧ m.store = m'.store ∧ m.cursors.cursors.get? owner = some fresh ∧
      m'.cursors.cursors.get? owner = some fresh
  | _, _ => False

/-- Pieces that agree with one cycle over what is left make, with the first, an agreement with one
cycle over all. -/
theorem Agree.cons {owner : Consumer} {moving moving' : Prop} {report : Report}
    {pieces : EStateM.Result SyncError Replica (List Report)}
    {next whole : EStateM.Result SyncError Replica Report} (hagree : Agree owner moving pieces next)
    (hjoined : Joined report moving' next whole) (hmoving : moving → moving')
    (hfresh : ∀ e m, whole = .error e m →
      m.cursors.cursors.get? owner = some (.fresh owner.context owner.name)) :
    Agree owner moving (preceded report pieces) whole := by
  cases next with
  | error e m =>
    cases pieces with
    | ok reports m₁ => exact hagree.elim
    | error e₁ m₁ =>
      cases whole with
      | ok whole m₂ => exact hjoined.elim
      | error e₂ m₂ =>
        obtain ⟨rfl, hstore, hfresh₁, -⟩ := hagree
        obtain ⟨rfl, hstore'⟩ := hjoined
        exact ⟨rfl, hstore.trans hstore', hfresh₁, hfresh _ _ rfl⟩
  | ok next m =>
    cases pieces with
    | error e₁ m₁ => exact hagree.elim
    | ok reports m₁ =>
      cases whole with
      | error e₂ m₂ => exact hjoined.elim
      | ok whole m₂ =>
        obtain ⟨hstore, happlied, hskipped, htasks, hcursors⟩ := hagree
        obtain ⟨hstore', happlied', hskipped', htasks', hcursors'⟩ := hjoined
        refine ⟨hstore.trans hstore', ?_, ?_, ?_, fun h => ?_⟩
        · rw [total_cons, happlied, happlied']
        · rw [total_cons, hskipped, hskipped']
        · rw [List.flatMap_cons, htasks, htasks']
        · exact (hcursors h).trans (hcursors' (hmoving h))

theorem updateAll_cons (lower upper : Nat) (bounds : List Nat) (m : Replica) :
    updateAll cfg remote lower (upper :: bounds) m =
      match update cfg remote lower upper m with
      | .error e m' => .error e m'
      | .ok report m' => preceded report (updateAll cfg remote upper bounds m') := by
  simp only [updateAll, bind, EStateM.bind]
  cases update cfg remote lower upper m with
  | error e m' => rfl
  | ok report m' =>
    simp only [preceded]
    cases updateAll cfg remote upper bounds m' <;> rfl

/-- A range may be followed in one cycle or in several: they fail alike, and what they do adds
up. -/
theorem updateAll_agrees (hremote : Supplies remote log) (hlog : (log.map Change.offset).Nodup)
    (hstart : m.engine.phase.canStart = true) (hcursors : m.cursors.Up) {bounds : List Nat}
    (hbounds : (lower :: (bounds ++ [upper])).Pairwise (· ≤ ·)) :
    Agree cfg.owner (∃ c ∈ log, bounds.getLastD lower < c.offset ∧ c.offset ≤ upper)
      (updateAll cfg remote lower (bounds ++ [upper]) m) (update cfg remote lower upper m) := by
  -- The pieces after the first agree with one cycle over the rest, which is joined with the first.
  induction bounds generalizing lower m with
  | nil =>
    rw [List.nil_append, updateAll_cons]
    cases h : update cfg remote lower upper m with
    | ok report m' => simp [updateAll, preceded, Agree, total, pure, EStateM.pure]
    | error e m' =>
      have hfresh := get?_of_update_error hremote hlog hstart hcursors h
      exact ⟨rfl, rfl, hfresh, hfresh⟩
  | cons mid bounds ih =>
    have hlower : lower ≤ mid := List.rel_of_pairwise_cons hbounds List.mem_cons_self
    have hrest : (mid :: (bounds ++ [upper])).Pairwise (· ≤ ·) := hbounds.of_cons
    have hupper : mid ≤ upper := List.rel_of_pairwise_cons hrest (by simp)
    rw [List.cons_append, updateAll_cons]
    cases h : update cfg remote lower mid m with
    | error e m₁ =>
      obtain ⟨m', hwhole, hstore⟩ :=
        update_eq_error_of_first hremote hlog hstart hcursors hlower hupper h
      rw [hwhole]
      exact ⟨rfl, hstore, get?_of_update_error hremote hlog hstart hcursors h,
        get?_of_update_error hremote hlog hstart hcursors hwhole⟩
    | ok report m₁ =>
      obtain ⟨hstart', hcursors', hjoined⟩ :=
        joined_of_first hremote hlog hstart hcursors hlower hupper h
      have hagree := ih hstart' hcursors' hrest
      rw [List.getLastD_cons]
      refine hagree.cons hjoined ?_ fun e m' hwhole => ?_
      · rintro ⟨c, hc, habove, hbelow⟩
        have hlast : mid ≤ bounds.getLastD mid := by
          obtain heq | hmem := List.mem_cons.mp (List.getLastD_mem_cons (l := bounds) (a := mid))
          · exact Nat.le_of_eq heq.symm
          · exact List.rel_of_pairwise_cons hrest (List.mem_append_left _ hmem)
        refine List.ne_nil_of_mem (a := c) (List.mem_filter.mpr ⟨hc, ?_⟩)
        simp only [Bool.and_eq_true, decide_eq_true_eq]
        omega
      · exact get?_of_update_error hremote hlog hstart hcursors hwhole

section Trial

def comings : List Change :=
  [.creation 1 .rule (namedDocument "r"), .creation 2 .decoder (namedDocument "d"),
    .deletion 3 "r"]

def supplying (log : List Change) : Remote where
  consumer := .ok ⟨"consumer", "context", 3, none, 0⟩
  changes lower upper := ⟨.ok (Feed.Log.range log lower upper), false⟩
  snapshot _ := .error .io

theorem comings_agree :
    let cfg := Config.new "context" "consumer" ""
    let m := Replica.of .empty .empty
    ∃ reports m₁ report m₂, updateAll cfg (supplying comings) 0 [1, 2, 3] m = .ok reports m₁ ∧
      update cfg (supplying comings) 0 3 m = .ok report m₂ ∧ m₁.store = m₂.store ∧
      m₁.cursors.cursors = m₂.cursors.cursors ∧ report.applied = 3 := by
  intro cfg m
  have hsupplied : Supplies (supplying comings) comings := fun _ _ => ⟨_, rfl, .refl _⟩
  have hcursors : m.cursors.Up := fun _ _ => rfl
  have hbounds : (0 :: ([1, 2] ++ [3])).Pairwise (· ≤ ·) := by decide
  have hagree : Agree cfg.owner _ _ (update cfg (supplying comings) 0 3 m) :=
    updateAll_agrees hsupplied (by decide) rfl hcursors hbounds
  change Agree _ _ (updateAll cfg (supplying comings) 0 [1, 2, 3] m) _ at hagree
  have hpieces : returned (fun reports _ => total Report.applied reports == 3)
      (updateAll cfg (supplying comings) 0 [1, 2, 3] m) = true := by
    decide +kernel
  obtain ⟨reports, m₁, h, hthree⟩ := eq_ok_of_returned hpieces
  rw [h] at hagree
  cases h' : update cfg (supplying comings) 0 3 m with
  | error e m₂ =>
    rw [h'] at hagree
    exact hagree.elim
  | ok report m₂ =>
    rw [h'] at hagree
    obtain ⟨hstore, happlied, -, -, hsame⟩ := hagree
    have hlast : ∃ c ∈ comings, 2 < c.offset ∧ c.offset ≤ 3 :=
      ⟨.deletion 3 "r", by simp [comings], by decide, by decide⟩
    exact ⟨reports, m₁, report, m₂, h, rfl, hstore, hsame hlast,
      happlied.symm.trans (beq_iff_eq.mp hthree)⟩

end Trial

end Cycle

end ContentSpaces
