import ContentSpaces.Registration
import Mathlib.Data.List.Nodup

/-!
# Registration of tasks

Of tasks that are accepted in turn, the last one about a subject says what is registered for it. So
their order matters only among those that are about one subject.
-/

namespace ContentSpaces

namespace Task

def document? : Task → Option Json
  | .upsert _ _ document => some document
  | .delete .. => none

def About (tasks : List Task) (s : Subject) : Prop := ∃ task ∈ tasks, task.subject? = some s

theorem about_cons {task : Task} {tasks : List Task} {s : Subject} :
    About (task :: tasks) s ↔ task.subject? = some s ∨ About tasks s := by
  simp only [About, List.mem_cons, exists_eq_or_imp]

end Task

namespace Registered

/-- What is registered after a task; one that is not accepted changes nothing. -/
def take (r : Registered) (task : Task) : Registered := (r.accept task).toOption.getD r

def takeAll (r : Registered) (tasks : List Task) : Registered := tasks.foldl take r

variable {r r' : Registered} {tasks tasks' : List Task} {s : Subject}

theorem get?_take (r : Registered) (task : Task) (s : Subject) :
    (r.take task).get? s = if task.subject? = some s then task.document? else r.get? s := by
  cases hsubject : task.subject? with
  | none =>
    rw [take, accept, hsubject]
    rfl
  | some subject =>
    simp only [take, accept, hsubject, Option.some.injEq]
    cases task with
    | upsert kind space document =>
      have hinsert := Table.get?_insert r subject document s
      simpa [Except.toOption, Task.document?, eq_comm] using hinsert
    | delete kind id =>
      by_cases hcontains : r.contains subject
      · have herase := Table.get?_erase r subject s
        simpa [hcontains, Except.toOption, Task.document?, eq_comm] using herase
      · -- What is not registered need not be removed.
        have hnone : r.get? subject = none := by simpa [Table.contains] using hcontains
        by_cases hs : subject = s
        · subst hs
          simp [hcontains, Except.toOption, Task.document?, hnone]
        · simp [hcontains, Except.toOption, hs]

theorem takeAll_cons (r : Registered) (task : Task) (tasks : List Task) :
    r.takeAll (task :: tasks) = (r.take task).takeAll tasks := rfl

theorem takeAll_append (r : Registered) (tasks tasks' : List Task) :
    r.takeAll (tasks ++ tasks') = (r.takeAll tasks).takeAll tasks' := List.foldl_append

theorem get?_takeAll_of_not_about (r : Registered) (h : ¬ Task.About tasks s) :
    (r.takeAll tasks).get? s = r.get? s := by
  induction tasks generalizing r with
  | nil => rfl
  | cons task tasks ih =>
    rw [Task.about_cons, not_or] at h
    rw [takeAll_cons, ih _ h.2, get?_take, if_neg h.1]

/-- The last task about a subject decides what is registered for it, whatever was before. -/
theorem exists_get?_takeAll_eq (h : Task.About tasks s) : ∃ task ∈ tasks,
    task.subject? = some s ∧ ∀ r : Registered, (r.takeAll tasks).get? s = task.document? := by
  induction tasks with
  | nil => simp [Task.About] at h
  | cons task tasks ih =>
    by_cases hrest : Task.About tasks s
    · obtain ⟨last, hmem, hsubject, hlast⟩ := ih hrest
      exact ⟨last, List.mem_cons_of_mem _ hmem, hsubject, fun r => hlast (r.take task)⟩
    · have hsubject := (Task.about_cons.mp h).resolve_right hrest
      refine ⟨task, List.mem_cons_self, hsubject, fun r => ?_⟩
      rw [takeAll_cons, get?_takeAll_of_not_about _ hrest, get?_take, if_pos hsubject]

theorem get?_takeAll_congr (r r' : Registered) (h : Task.About tasks s) :
    (r.takeAll tasks).get? s = (r'.takeAll tasks).get? s := by
  obtain ⟨last, -, -, hlast⟩ := exists_get?_takeAll_eq h
  rw [hlast r, hlast r']

/-- What tasks leave registered for a subject that some of them are about. -/
def left? (tasks : List Task) (s : Subject) : Option Json := (takeAll .empty tasks).get? s

theorem get?_takeAll_of_about (r : Registered) (h : Task.About tasks s) :
    (r.takeAll tasks).get? s = left? tasks s := get?_takeAll_congr r .empty h

/-- Two registrations are brought together by exactly the tasks that are about every difference
between them and leave the same for each subject. -/
theorem takeAll_eq_takeAll_iff (habout : ∀ s, Task.About tasks' s ↔ Task.About tasks s) :
    r.takeAll tasks' = r'.takeAll tasks ↔
      ∀ s, (¬ Task.About tasks s → r.get? s = r'.get? s) ∧
        (Task.About tasks s → left? tasks' s = left? tasks s) := by
  constructor
  · intro heq s
    constructor
    · intro hnone
      rw [← get?_takeAll_of_not_about r (mt (habout s).mp hnone), heq,
        get?_takeAll_of_not_about r' hnone]
    · intro hsome
      rw [← get?_takeAll_of_about r ((habout s).mpr hsome), heq, get?_takeAll_of_about r' hsome]
  · intro h
    apply Table.ext_get?
    intro s
    by_cases hsome : Task.About tasks s
    · rw [get?_takeAll_of_about r ((habout s).mpr hsome), get?_takeAll_of_about r' hsome,
        (h s).2 hsome]
    · rw [get?_takeAll_of_not_about r (mt (habout s).mp hsome),
        get?_takeAll_of_not_about r' hsome, (h s).1 hsome]

/-- Where no two tasks are about one subject, they may be taken in any order. -/
theorem takeAll_of_perm (r : Registered) (hperm : tasks'.Perm tasks)
    (hnodup : (tasks.map Task.subject?).Nodup) : r.takeAll tasks' = r.takeAll tasks := by
  have habout (s : Subject) : Task.About tasks' s ↔ Task.About tasks s := by
    simp only [Task.About, hperm.mem_iff]
  refine (takeAll_eq_takeAll_iff habout).mpr fun s => ⟨fun _ => rfl, fun hsome => ?_⟩
  obtain ⟨task, hmem, hsubject, hlast⟩ := exists_get?_takeAll_eq hsome
  obtain ⟨task', hmem', hsubject', hlast'⟩ := exists_get?_takeAll_eq ((habout s).mpr hsome)
  have hsame : task' = task := List.inj_on_of_nodup_map hnodup (hperm.mem_iff.mp hmem') hmem
    (hsubject'.trans hsubject.symm)
  rw [left?, left?, hlast, hlast', hsame]

/-- A task that is about nothing is not accepted. -/
theorem takeAll_filter (r : Registered) {q : Task → Bool}
    (hq : ∀ task ∈ tasks, q task = false → task.subject? = none) :
    r.takeAll (tasks.filter q) = r.takeAll tasks := by
  induction tasks generalizing r with
  | nil => rfl
  | cons task tasks ih =>
    obtain ⟨hfirst, hrest⟩ := List.forall_mem_cons.mp hq
    cases hpasses : q task with
    | true =>
      rw [List.filter_cons_of_pos hpasses, takeAll_cons, takeAll_cons]
      exact ih _ hrest
    | false =>
      have hnothing : r.take task = r := by
        rw [take, accept, hfirst hpasses]
        rfl
      rw [List.filter_cons_of_neg (by simp [hpasses]), takeAll_cons, hnothing]
      exact ih _ hrest

end Registered

/-- A service has taken tasks in turn, and its requests go as before. -/
structure Registry.Took (g : Registry) (tasks : List Task) (g' : Registry) : Prop where
  registered : g'.registered = g.registered.takeAll tasks
  conducts : g'.conducts = g.conducts
  schedule : g'.schedule = g.schedule

namespace Registry

variable {g g' g'' : Registry} {task : Task} {tasks tasks' : List Task}

theorem Took.refl (g : Registry) : g.Took [] g := ⟨rfl, rfl, rfl⟩

theorem Took.append (h : g.Took tasks g') (h' : g'.Took tasks' g'') :
    g.Took (tasks ++ tasks') g'' := by
  refine ⟨?_, h'.conducts.trans h.conducts, h'.schedule.trans h.schedule⟩
  rw [h'.registered, h.registered, Registered.takeAll_append]

theorem Took.filter (h : g.Took tasks g') {q : Task → Bool}
    (hq : ∀ task ∈ tasks, q task = false → task.subject? = none) : g.Took (tasks.filter q) g' :=
  ⟨h.registered.trans (Registered.takeAll_filter _ hq).symm, h.conducts, h.schedule⟩

theorem took_start (g : Registry) (task : Task) : g.Took [] (g.start task).2 := by
  unfold start
  split <;> exact ⟨rfl, rfl, rfl⟩

theorem took_answer (g : Registry) (task : Task) : g.Took [task] (g.answer task none).2 := by
  have htaken (r : Registered) : r.takeAll [task] = (r.accept task).toOption.getD r := rfl
  unfold answer
  extract_lets counted
  have hcounted : g.Took [] counted := by
    unfold counted
    split <;> exact ⟨rfl, rfl, rfl⟩
  have hregistered : counted.registered = g.registered := hcounted.registered
  rw [hregistered]
  cases haccepted : g.registered.accept task with
  | ok registered =>
    exact ⟨by rw [htaken, haccepted]; rfl, hcounted.conducts, hcounted.schedule⟩
  | error e =>
    exact ⟨by rw [htaken, haccepted]; exact hregistered, hcounted.conducts, hcounted.schedule⟩

theorem took_refusal (g : Registry) (task : Task) (e : RegistrationError) :
    g.Took [] (g.answer task (some e)).2 := by
  unfold answer
  dsimp only
  split <;> exact ⟨rfl, rfl, rfl⟩

end Registry

end ContentSpaces
