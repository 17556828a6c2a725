import ContentSpaces.Proofs.Registration
import ContentSpaces.Proofs.Registration.Schedule

/-!
# Batches with refused and late requests

Some requests are refused, some are not answered in their time, and the others are accepted at once.
A late request keeps one place for its own time, so each of them costs the batch at most one such
time. If the batch has longer than that, its end is never reached, whatever the schedule: every task
meets the fate it would meet alone. The accepted ones are taken in the order of the schedule. That is
the order of the batch if the first to come is the first to be served, and it makes no difference
where no two of them are about the same.
-/

namespace ContentSpaces

def Task.isNamed (ids : List String) (task : Task) : Bool :=
  task.id?.any fun id => ids.contains id

def Registry.requestAll (g : Registry) (tasks : List Task) : Registry :=
  tasks.foldl (fun g task => (request task g).2) g

namespace Dispatch

/-- The tasks that are left: those under way, then those that wait. -/
def Together.pending (t : Together) : List Task := t.flying.map Flight.task ++ t.waiting

def Together.slow (late : List String) (t : Together) : Nat :=
  t.waiting.countP (Task.isNamed late) +
    t.flying.countP fun flight => !isOver t.progress.now flight

section Fates

variable (refused late : List String)

def passes (task : Task) : Bool :=
  task.id?.any fun id => !late.contains id && !refused.contains id

/-- What has no ID is rejected. -/
def fails (task : Task) : Bool :=
  task.id?.all fun id => !late.contains id && refused.contains id

def Meets (task : Task) : Outcome → Prop
  | .succeeded => passes refused late task
  | .failed _ => fails refused late task
  | .timedOut => task.isNamed late

def Report.tallied (r : Report) (tasks : List Task) : Report where
  succeeded := r.succeeded + tasks.countP (passes refused late)
  failed := r.failed + tasks.countP (fails refused late)
  timedOut := r.timedOut + tasks.countP (Task.isNamed late)

/-- The tasks have been counted, and the service has taken those of them that pass, in some order. -/
structure Served (p : Progress) (tasks order : List Task) (p' : Progress) : Prop where
  report : p'.report = p.report.tallied refused late tasks
  took : p.registry.Took order p'.registry

/-- How a request under way ends: one that is late is cut off within its time, and any other is
answered at once. -/
inductive Fated (now budget : Nat) (flight : Flight) : Prop
  | cut (hlate : flight.task.isNamed late) (hconduct : flight.conduct = none)
      (hends : flight.ends ≤ now + budget) : Fated now budget flight
  | prompt (reason : String) (hprompt : flight.task.isNamed late = false)
      (hconduct : flight.conduct =
        some ⟨0, if flight.task.isNamed refused then some (.rejected reason) else none⟩)
      (hends : flight.ends ≤ now) : Fated now budget flight

/-- There is time for every late task that is left. -/
structure Timely (limits : Limits) (t : Together) : Prop where
  conducts : t.progress.registry.conducts = Registry.conductsOf refused late 0
  fated : ∀ flight ∈ t.flying, Fated refused late t.progress.now limits.itemTimeout flight
  time : t.progress.now + t.slow late * limits.itemTimeout < limits.batchTimeout

/-- Some of the tasks that were left have been served, and the others are left. -/
structure Onward (t t' : Together) (done : List Task) : Prop where
  served : Served refused late t.progress done (done.filter (passes refused late)) t'.progress
  pending : (done ++ t'.pending).Perm t.pending
  inTurn : t.progress.registry.schedule = Registry.inTurn →
    (done ++ t'.pending).filter (passes refused late) = t.pending.filter (passes refused late)

end Fates

variable {refused late : List String} {limits : Limits} {g g' : Registry} {p p' p'' : Progress}
  {task : Task} {tasks tasks' order order' : List Task} {flight : Flight} {t t' : Together}
  {now budget : Nat}

theorem passes_eq (refused late : List String) (task : Task) : passes refused late task =
    (task.id?.isSome && !task.isNamed late && !task.isNamed refused) := by
  unfold passes Task.isNamed
  cases task.id? <;> simp

theorem fails_eq (refused late : List String) (task : Task) : fails refused late task =
    (!task.isNamed late && (task.id?.isNone || task.isNamed refused)) := by
  unfold fails Task.isNamed
  cases task.id? <;> simp

theorem Meets.count_eq {o : Outcome} (h : Meets refused late task o) (r : Report) :
    r.count o = r.tallied refused late [task] := by
  have hpasses := passes_eq refused late task
  have hfails := fails_eq refused late task
  cases o with
  | succeeded => cases hid : task.id? <;> simp_all [Meets, Report.count, Report.tallied]
  | failed e => cases hid : task.id? <;> simp_all [Meets, Report.count, Report.tallied]
  | timedOut => simp_all [Meets, Report.count, Report.tallied]

theorem Served.refl (p : Progress) : Served refused late p [] [] p := ⟨rfl, .refl _⟩

theorem Served.append (h : Served refused late p tasks order p')
    (h' : Served refused late p' tasks' order' p'') :
    Served refused late p (tasks ++ tasks') (order ++ order') p'' := by
  constructor
  · rw [h'.report, h.report]
    simp only [Report.tallied, List.countP_append, Nat.add_assoc]
  · exact h.took.append h'.took

theorem Served.of_perm (h : Served refused late p tasks order p') (hperm : tasks.Perm tasks') :
    Served refused late p tasks' order p' := by
  constructor
  · rw [h.report]
    simp only [Report.tallied, hperm.countP_eq]
  · exact h.took

section Requests

theorem Fated.later {now' : Nat} (h : Fated refused late now budget flight) (hnow : now ≤ now') :
    Fated refused late now' budget flight := by
  cases h with
  | cut hlate hconduct hends => exact .cut hlate hconduct (by omega)
  | prompt reason hprompt hconduct hends => exact .prompt reason hprompt hconduct (by omega)

theorem Fated.ends_le (h : Fated refused late now budget flight) : flight.ends ≤ now + budget := by
  cases h with
  | cut _ _ hends => exact hends
  | prompt _ _ _ hends => exact Nat.le_add_right_of_le hends

theorem exists_start_eq (hg : g.conducts = Registry.conductsOf refused late 0) (task : Task) :
    ∃ reason, (g.start task).1 = ⟨if task.isNamed late then 3600000 else 0,
      if task.isNamed refused then some (.rejected reason) else none⟩ := by
  unfold Registry.start Task.subject? Task.isNamed
  cases task.id? with
  | none => simp
  | some id =>
    simp only [hg, Registry.conductsOf, Option.map_some, Option.any_some, Nat.zero_add]
    exact ⟨_, rfl⟩

/-- How a request ends is fixed when it starts. -/
theorem fated_launch (hg : g.conducts = Registry.conductsOf refused late 0)
    (hbudget : task.isNamed late → budget < 3600000)
    (hlaunch : launch g task now budget = (flight, g')) :
    flight.task = task ∧ Fated refused late now budget flight ∧ g.Took [] g' := by
  have htook := g.took_start task
  unfold launch at hlaunch
  dsimp only at hlaunch
  obtain ⟨reason, hconduct⟩ := exists_start_eq hg task
  rw [hconduct] at hlaunch
  cases hlate : task.isNamed late with
  | true =>
    have hlong := hbudget hlate
    rw [hlate, if_neg (by simp; omega)] at hlaunch
    cases hlaunch
    exact ⟨rfl, .cut hlate rfl (Nat.le_refl _), htook⟩
  | false =>
    rw [hlate, if_pos (by simp)] at hlaunch
    cases hlaunch
    exact ⟨rfl, .prompt _ hlate rfl (Nat.le_refl _), htook⟩

theorem subject?_of_id? {id : String} (hid : task.id? = some id) :
    task.subject? = some ⟨task.kind, id⟩ := by
  rw [Task.subject?, hid]
  rfl

theorem outcome_answer (g : Registry) {id : String} (hid : task.id? = some id) :
    outcome task (g.answer task none).1 = .succeeded := by
  cases task with
  | upsert kind space document =>
    simp [Registry.answer, Registered.accept, subject?_of_id? hid, outcome]
  | delete kind id' =>
    simp only [Registry.answer, Registered.accept, subject?_of_id? hid]
    by_cases hregistered : g.registered.contains ⟨kind, id⟩
    · simp [Task.kind, hregistered, outcome]
    · -- What is not registered need not be removed.
      simp [Task.kind, hregistered, outcome]

theorem outcome_answer_of_nameless (g : Registry) (hid : task.id? = none) :
    ∃ e, outcome task (g.answer task none).1 = .failed e := by
  have hsubject : task.subject? = none := by rw [Task.subject?, hid, Option.map_none]
  cases task with
  | upsert kind space document =>
    simp [Registry.answer, Registered.accept, hsubject, outcome]
  | delete kind id => cases hid

theorem outcome_refusal (g : Registry) (task : Task) (reason : String) :
    outcome task (g.answer task (some (.rejected reason))).1 = .failed (.rejected reason) := by
  cases task <;> rfl

theorem Fated.meets (h : Fated refused late now budget flight) (g : Registry) :
    Meets refused late flight.task (land g flight).1 := by
  cases h with
  | cut hlate hconduct _ => simpa [land, hconduct, Meets] using hlate
  | prompt reason hprompt hconduct _ =>
    simp only [land, hconduct]
    cases hrefused : flight.task.isNamed refused with
    | true =>
      rw [if_pos rfl, outcome_refusal]
      simp [Meets, fails_eq, hprompt, hrefused]
    | false =>
      rw [if_neg nofun]
      cases hid : flight.task.id? with
      | none =>
        obtain ⟨e, he⟩ := outcome_answer_of_nameless g hid
        rw [he]
        simp [Meets, fails, hid]
      | some id =>
        rw [outcome_answer g hid]
        simp [Meets, passes_eq, hid, hprompt, hrefused]

theorem Fated.took (h : Fated refused late now budget flight) (g : Registry) :
    g.Took ([flight.task].filter (passes refused late)) (land g flight).2 := by
  cases h with
  | cut hlate hconduct _ =>
    simpa [land, hconduct, passes_eq, hlate] using Registry.Took.refl g
  | prompt reason hprompt hconduct _ =>
    simp only [land, hconduct]
    cases hrefused : flight.task.isNamed refused with
    | true => simpa [passes_eq, hrefused] using g.took_refusal flight.task (.rejected reason)
    | false =>
      rw [if_neg nofun]
      refine (g.took_answer flight.task).filter fun task htask hpasses => ?_
      obtain rfl := List.mem_singleton.mp htask
      have hid : flight.task.id? = none := by simpa [passes_eq, hprompt, hrefused] using hpasses
      rw [Task.subject?, hid, Option.map_none]

/-- A request under way ends with the fate of its task. -/
theorem Fated.served (h : Fated refused late now budget flight) (p : Progress) :
    Served refused late p [flight.task] ([flight.task].filter (passes refused late))
      (p.land flight) :=
  ⟨(h.meets p.registry).count_eq p.report, h.took p.registry⟩

end Requests

section Phases

/-- In the first phase each late task takes no longer than its own time, and the others take none. -/
theorem served_oneByOne (hg : p.registry.conducts = Registry.conductsOf refused late 0)
    (hbrief : ∀ task : Task, task.isNamed late → limits.itemTimeout < 3600000)
    (htime : p.now + tasks.countP (Task.isNamed late) * limits.itemTimeout < limits.batchTimeout) :
    ∃ done, tasks = done ++ (oneByOne limits p tasks).2 ∧
      Served refused late p done (done.filter (passes refused late)) (oneByOne limits p tasks).1 ∧
      (oneByOne limits p tasks).1.now +
        (oneByOne limits p tasks).2.countP (Task.isNamed late) * limits.itemTimeout <
          limits.batchTimeout := by
  induction tasks generalizing p with
  | nil => exact ⟨[], rfl, .refl p, htime⟩
  | cons task tasks ih =>
    unfold oneByOne
    rw [if_neg (by omega)]
    cases hlaunch : launch p.registry task p.now
      (min limits.itemTimeout (limits.batchTimeout - p.now)) with
    | mk flight g =>
      obtain ⟨rfl, hfated, hstarted⟩ := fated_launch hg
        (fun hlate => Nat.lt_of_le_of_lt (Nat.min_le_left ..) (hbrief _ hlate)) hlaunch
      have hlanded := hfated.served { p with registry := g }
      have hserved : Served refused late p [flight.task] ([flight.task].filter (passes refused late))
          ⟨flight.ends, p.report.count (land g flight).1, (land g flight).2⟩ :=
        ⟨hlanded.report, hstarted.append hlanded.took⟩
      have hleft : flight.ends + tasks.countP (Task.isNamed late) * limits.itemTimeout <
          limits.batchTimeout := by
        cases hfated with
        | cut hlate _ hends =>
          rw [List.countP_cons_of_pos hlate, Nat.succ_mul] at htime
          omega
        | prompt _ hprompt _ hends =>
          rw [List.countP_cons_of_neg (by simp [hprompt])] at htime
          omega
      dsimp only
      split
      · exact ⟨[flight.task], rfl, hserved, hleft⟩
      · obtain ⟨done, hdone, hrest, hlater⟩ := ih (hserved.took.conducts.trans hg) hleft
        have hall := hserved.append hrest
        rw [← List.filter_append] at hall
        exact ⟨flight.task :: done, congrArg (flight.task :: ·) hdone, hall, hlater⟩

/-- A request under way that is not over is late. -/
theorem isNamed_of_not_over (h : Fated refused late now budget flight)
    (hover : Together.isOver now flight = false) : flight.task.isNamed late := by
  cases h with
  | cut hlate _ _ => exact hlate
  | prompt _ _ _ hends => simp [Together.isOver, hends] at hover

theorem timely_turn (ht : Timely refused late limits t)
    (hbrief : ∀ task : Task, task.isNamed late → limits.itemTimeout < 3600000)
    (h : t.Turn limits t') : Timely refused late limits t' := by
  have hfated := ht.fated
  have htime := ht.time
  cases h with
  | land hflying hover _ =>
    rw [hflying] at hfated
    constructor
    · exact ((hfated _ (by simp)).took _).conducts.trans ht.conducts
    · intro other hother
      refine hfated other (List.mem_append.mpr ?_)
      exact (List.mem_append.mp hother).imp id (List.mem_cons_of_mem _)
    · simpa [Together.slow, Progress.land, hflying, hover] using htime
  | @start before after task flight g _ hwaiting hlaunch _ =>
    obtain ⟨rfl, hstarts, hstarted⟩ := fated_launch ht.conducts (hbrief task) hlaunch
    constructor
    · exact hstarted.conducts.trans ht.conducts
    · intro other hother
      rcases List.mem_append.mp hother with hother | hother
      · exact hfated other hother
      · obtain rfl := List.mem_singleton.mp hother
        exact hstarts
    · refine Nat.lt_of_le_of_lt (Nat.add_le_add_left (Nat.mul_le_mul_right _ ?_) _) htime
      cases hover : Together.isOver t.progress.now flight with
      | true =>
        simp only [Together.slow, hwaiting, List.countP_append, List.countP_cons,
          List.countP_nil, hover, Bool.not_true, Bool.false_eq_true, if_false]
        omega
      | false =>
        have hlate := isNamed_of_not_over hstarts hover
        simp only [Together.slow, hwaiting, List.countP_append, List.countP_cons,
          List.countP_nil, hover, hlate, Bool.not_false, if_true]
        omega

theorem onward_turn (ht : Timely refused late limits t)
    (hbrief : ∀ task : Task, task.isNamed late → limits.itemTimeout < 3600000)
    (h : t.Turn limits t') : ∃ done, Onward refused late t t' done := by
  have hfated := ht.fated
  cases h with
  | @land before after flight hflying _ hfirst =>
    rw [hflying] at hfated
    refine ⟨[flight.task], (hfated flight (by simp)).served t.progress, ?_, fun hturn => ?_⟩
    · have hmiddle : (before.map Flight.task ++
          flight.task :: (after.map Flight.task ++ t.waiting)).Perm
          (flight.task :: (before.map Flight.task ++ (after.map Flight.task ++ t.waiting))) :=
        List.perm_middle
      simpa [Together.pending, hflying] using hmiddle.symm
    · have hnone : (before.map Flight.task).filter (passes refused late) = [] := by
        refine List.filter_eq_nil_iff.mpr fun task htask => ?_
        obtain ⟨other, hother, rfl⟩ := List.mem_map.mp htask
        have hlate :=
          isNamed_of_not_over (hfated other (by simp [hother])) (hfirst hturn other hother)
        simp [passes_eq, hlate]
      simp [Together.pending, hflying, hnone, List.filter_cons]
  | @start before after task flight g _ hwaiting hlaunch hfirst =>
    obtain ⟨rfl, -, hstarted⟩ := fated_launch ht.conducts (hbrief task) hlaunch
    refine ⟨[], ⟨rfl, hstarted⟩, ?_, fun hturn => ?_⟩
    · have hmiddle : (before ++ flight.task :: after).Perm (flight.task :: (before ++ after)) :=
        List.perm_middle
      simpa [Together.pending, hwaiting] using hmiddle.symm.append_left (t.flying.map Flight.task)
    · obtain ⟨rfl, -⟩ := hfirst hturn
      simp [Together.pending, hwaiting]

theorem nextInstant_le_ends (limits : Limits) {flying : List Flight} (hflight : flight ∈ flying) :
    Together.nextInstant limits flying ≤ flight.ends := by
  induction flying with
  | nil => cases hflight
  | cons other flying ih =>
    rcases List.mem_cons.mp hflight with rfl | hflight
    · exact Nat.min_le_left ..
    · exact Nat.le_trans (Nat.min_le_right ..) (ih hflight)

/-- The next instant is the end of a request, unless it is that of the batch. -/
theorem exists_ends_eq_nextInstant {flying : List Flight}
    (h : Together.nextInstant limits flying < limits.batchTimeout) :
    ∃ flight ∈ flying, flight.ends = Together.nextInstant limits flying := by
  induction flying with
  | nil => exact absurd h (Nat.lt_irrefl _)
  | cons flight flying ih =>
    rw [Together.nextInstant] at h ⊢
    rcases Nat.le_total flight.ends (Together.nextInstant limits flying) with hfirst | hlater
    · exact ⟨flight, List.mem_cons_self, (Nat.min_eq_left hfirst).symm⟩
    · rw [Nat.min_eq_right hlater] at h ⊢
      obtain ⟨other, hother, hends⟩ := ih h
      exact ⟨other, List.mem_cons_of_mem _ hother, hends⟩

/-- If tasks wait and none may be started, all places are taken. -/
theorem exists_flying (hroom : 1 ≤ limits.concurrency) (hstartable : t.startable limits = 0)
    (hleft : t.flying ≠ [] ∨ t.waiting ≠ []) : ∃ flight, flight ∈ t.flying := by
  refine List.exists_mem_of_ne_nil _ (hleft.elim id fun hwaiting hnone => ?_)
  obtain ⟨task, htask⟩ := List.exists_mem_of_ne_nil _ hwaiting
  have hfull := List.countP_eq_zero.mp hstartable task htask
  simp only [Together.hasRoom, hnone, List.length_nil, decide_eq_true_eq] at hfull
  omega

/-- With the next instant one more request is over. -/
theorem slow_advance_lt (late : List String)
    (hover : ∀ flight ∈ t.flying, Together.isOver t.progress.now flight = false)
    (hnext : Together.nextInstant limits t.flying < limits.batchTimeout) :
    (t.advance limits).slow late < t.slow late := by
  obtain ⟨flight, hflight, hends⟩ := exists_ends_eq_nextInstant hnext
  have hnone : t.flying.countP (fun flight => !Together.isOver t.progress.now flight) =
      t.flying.length :=
    List.countP_eq_length.mpr fun flight hflight => by simp [hover flight hflight]
  have hended : (t.flying.filter fun flight =>
      !Together.isOver (Together.nextInstant limits t.flying) flight).length < t.flying.length :=
    List.length_filter_lt_length_iff_exists.mpr ⟨flight, hflight, by simp [Together.isOver, hends]⟩
  rw [← List.countP_eq_length_filter] at hended
  simp only [Together.slow, Together.advance, hnone]
  exact Nat.add_lt_add_left hended _

theorem timely_advance (ht : Timely refused late limits t) (hroom : 1 ≤ limits.concurrency)
    (hready : t.landable + t.startable limits = 0) (hleft : t.flying ≠ [] ∨ t.waiting ≠ []) :
    Timely refused late limits (t.advance limits) := by
  have htime := ht.time
  have hover : ∀ flight ∈ t.flying, Together.isOver t.progress.now flight = false := by
    simpa [Together.landable] using Nat.eq_zero_of_add_eq_zero_right hready
  obtain ⟨flight, hflight⟩ := exists_flying hroom (Nat.eq_zero_of_add_eq_zero_left hready) hleft
  have hsoon : Together.nextInstant limits t.flying ≤ t.progress.now + limits.itemTimeout :=
    Nat.le_trans (nextInstant_le_ends limits hflight) (ht.fated flight hflight).ends_le
  have hslow : 1 ≤ t.slow late := by
    refine Nat.le_add_left_of_le (List.countP_pos_iff.mpr ⟨flight, hflight, ?_⟩)
    simp [hover flight hflight]
  have hearly : Together.nextInstant limits t.flying < limits.batchTimeout := by
    have hone := Nat.mul_le_mul_right limits.itemTimeout hslow
    omega
  have hfewer := Nat.mul_le_mul_right limits.itemTimeout (slow_advance_lt late hover hearly)
  rw [Nat.succ_mul] at hfewer
  constructor
  · exact ht.conducts
  · intro other hother
    refine (ht.fated other hother).later (Nat.le_of_lt ?_)
    refine Together.lt_nextInstant (by omega) fun flight hflight => ?_
    simpa [Together.isOver] using hover flight hflight
  · simp only [Together.advance] at hfewer ⊢
    omega

/-- The time of the batch is never over, so all tasks that are left are served in the end. -/
theorem Timely.served {p : Progress} (ht : Timely refused late limits t)
    (hroom : 1 ≤ limits.concurrency)
    (hbrief : ∀ task : Task, task.isNamed late → limits.itemTimeout < 3600000)
    (h : t.Runs limits p) : ∃ order, order.Perm (t.pending.filter (passes refused late)) ∧
      (t.progress.registry.schedule = Registry.inTurn →
        order = t.pending.filter (passes refused late)) ∧
      Served refused late t.progress t.pending order p := by
  induction h with
  | abandoned hnow =>
    have htime := ht.time
    omega
  | turn _ hturn _ ih =>
    obtain ⟨done, honward⟩ := onward_turn ht hbrief hturn
    obtain ⟨order, hperm, hinTurn, hserved⟩ := ih (timely_turn ht hbrief hturn)
    have hschedule := honward.served.took.schedule
    refine ⟨done.filter (passes refused late) ++ order, ?_, fun hturn => ?_,
      (honward.served.append hserved).of_perm honward.pending⟩
    · refine (hperm.append_left _).trans ?_
      rw [← List.filter_append]
      exact honward.pending.filter _
    · rw [hinTurn (hschedule.trans hturn), ← List.filter_append, honward.inTurn hturn]
  | @done t _ hflying hwaiting =>
    have hnone : t.pending = [] := by rw [Together.pending, hflying, hwaiting, List.map_nil,
      List.append_nil]
    rw [hnone]
    exact ⟨[], .refl _, fun _ => rfl, .refl _⟩
  | later _ hready hleft _ ih =>
    obtain ⟨order, hperm, hinTurn, hserved⟩ := ih (timely_advance ht hroom hready hleft)
    exact ⟨order, hperm, hinTurn, hserved.report, hserved.took⟩

end Phases

/-- Whatever the schedule, every task of a batch with time for the late ones meets its fate, and those
that pass are taken in some order. -/
theorem served_dispatch (hg : g.conducts = Registry.conductsOf refused late 0)
    (hroom : 1 ≤ limits.concurrency)
    (hbrief : ∀ task : Task, task.isNamed late → limits.itemTimeout < 3600000)
    (htime : tasks.countP (Task.isNamed late) * limits.itemTimeout < limits.batchTimeout) :
    ∃ order, order.Perm (tasks.filter (passes refused late)) ∧
      (g.schedule = Registry.inTurn → order = tasks.filter (passes refused late)) ∧
      (dispatch limits tasks g).1 = Report.tallied refused late .empty tasks ∧
      g.Took order (dispatch limits tasks g).2 := by
  have hstart : (⟨0, .empty, g⟩ : Progress).now +
      tasks.countP (Task.isNamed late) * limits.itemTimeout < limits.batchTimeout := by
    simpa using htime
  have hone := served_oneByOne hg hbrief hstart
  unfold dispatch
  dsimp only
  generalize oneByOne limits ⟨0, .empty, g⟩ tasks = first at hone
  obtain ⟨p, waiting⟩ := first
  obtain ⟨done, rfl, hfirst, hleft⟩ := hone
  have hspawned : Timely refused late limits ⟨0, p, [], waiting⟩ :=
    ⟨hfirst.took.conducts.trans hg, List.forall_mem_nil _, hleft⟩
  obtain ⟨order, hperm, hinTurn, hserved⟩ := hspawned.served hroom hbrief (Together.runs_run limits _)
  have hall := hfirst.append hserved
  refine ⟨done.filter (passes refused late) ++ order, ?_, fun hturn => ?_, hall.report, hall.took⟩
  · rw [List.filter_append]
    exact hperm.append_left _
  · rw [List.filter_append, hinTurn (hfirst.took.schedule.trans hturn)]
    rfl

end Dispatch

open Dispatch

variable {refused late : List String} {limits : Limits} {g : Registry} {tasks : List Task}

theorem Registry.took_requestAll (hg : g.conducts = Registry.conductsOf refused late 0)
    (hpasses : ∀ task ∈ tasks, passes refused late task) : g.Took tasks (g.requestAll tasks) := by
  induction tasks generalizing g with
  | nil => exact .refl g
  | cons task tasks ih =>
    obtain ⟨hpass, hpasses⟩ := List.forall_mem_cons.mp hpasses
    have hrefusal : (g.start task).1.refusal = none := by
      obtain ⟨reason, hconduct⟩ := exists_start_eq hg task
      rw [hconduct]
      simp_all [passes_eq]
    have hanswer := (g.took_start task).append ((g.start task).2.took_answer task)
    rw [← hrefusal] at hanswer
    exact hanswer.append (ih (hanswer.conducts.trans hg) hpasses)

/-- Elements in any order can be followed by those that were left out. -/
theorem exists_perm_filter_eq {α : Type} {q : α → Bool} {as order : List α}
    (h : order.Perm (as.filter q)) : ∃ all : List α, all.Perm as ∧ all.filter q = order := by
  have hq : ∀ a ∈ order, q a := fun a ha => (List.mem_filter.mp (h.mem_iff.mp ha)).2
  refine ⟨order ++ as.filter fun a => !q a,
    (h.append_right _).trans (List.filter_append_perm ..), ?_⟩
  rw [List.filter_append, List.filter_eq_self.mpr hq, List.filter_filter]
  simp

/-- An accepting service takes all tasks, in the order in which the schedule lands them. -/
theorem took_dispatch (hg : g.conducts = Registry.accepting) (hroom : 1 ≤ limits.concurrency)
    (htime : 0 < limits.batchTimeout) (tasks : List Task) :
    ∃ landed, landed.Perm tasks ∧ (g.schedule = Registry.inTurn → landed = tasks) ∧
      g.Took landed (dispatch limits tasks g).2 := by
  have hconducts : g.conducts = Registry.conductsOf [] [] 0 := hg
  have hnone : ∀ task : Task, task.isNamed [] → limits.itemTimeout < 3600000 :=
    fun task htask => by simp [Task.isNamed] at htask
  have hcount : tasks.countP (Task.isNamed []) * limits.itemTimeout < limits.batchTimeout := by
    rw [List.countP_eq_zero.mpr (by simp [Task.isNamed])]
    simpa using htime
  obtain ⟨order, hperm, hinTurn, -, htook⟩ := served_dispatch hconducts hroom hnone hcount
  obtain ⟨landed, hlanded, hall, rfl⟩ : ∃ landed, landed.Perm tasks ∧
      (g.schedule = Registry.inTurn → landed = tasks) ∧ landed.filter (passes [] []) = order := by
    by_cases hturn : g.schedule = Registry.inTurn
    · exact ⟨tasks, .refl _, fun _ => rfl, (hinTurn hturn).symm⟩
    · obtain ⟨landed, hlanded, hfilter⟩ := exists_perm_filter_eq hperm
      exact ⟨landed, hlanded, fun h => absurd h hturn, hfilter⟩
  -- What does not pass is about nothing, so it may be taken as well.
  have hnameless (task : Task) (htask : passes [] [] task = false) : task.subject? = none := by
    simpa [passes_eq, Task.isNamed, Task.subject?] using htask
  refine ⟨landed, hlanded, hall, ?_, htook.conducts, htook.schedule⟩
  rw [htook.registered, Registered.takeAll_filter _ fun task _ => hnameless task]

section Trial

def ruleTask (id : String) : Task := .upsert .rule .standard (.object [("id", .string id)])

/-- A late task, a refused one, and a late one that is refused as well, with two that pass. -/
def mixedTasks : List Task :=
  [ruleTask "late", ruleTask "bad", ruleTask "a", ruleTask "worst", ruleTask "b"]

def mixedRegistry : Registry := .empty (Registry.conductsOf ["bad", "worst"] ["late", "worst"] 0)

def titledTask (title : String) : Task :=
  .upsert .rule .standard (.object [("id", .string "a"), ("title", .string title)])

/-- On several threads the task of a later change may be overtaken by that of an earlier one. -/
example :
    let g : Registry := { Registry.empty Registry.accepting with schedule := fun _ turn => 1 - turn }
    let tasks := [ruleTask "first", titledTask "old", titledTask "new"]
    ((dispatch .default tasks g).2.registered.get? ⟨.rule, "a"⟩).bind (·.stringField? "title") =
      some "old" := by
  decide +kernel

end Trial

end ContentSpaces
