import ContentSpaces.Registration

/-!
# Dispatching tasks

Tasks are requested one at a time until the first is accepted, so that the service can set itself
up; then all others are let go, with a bounded number under way at once. Each request may take so
long and the whole batch so long; a request that is cut off stays under way at the service. A
request answered at the instant its own time is over counts as answered, but nothing is answered
once the time of the batch is over.

Time goes on only when nothing can be done at an instant. What is done first at an instant is left to
the schedule: it may start the waiting tasks in any order, and land any request that is over before
or after that. A single thread serves first come, first served; several threads promise no order.
-/

namespace ContentSpaces

namespace Dispatch

/-- Times are in whole milliseconds. Neither they nor the number of requests are bounded. -/
structure Limits where
  concurrency : Nat
  itemTimeout : Nat
  batchTimeout : Nat
  deriving DecidableEq, Repr

def Limits.default : Limits := ⟨8, 10000, 60000⟩

structure Report where
  succeeded : Nat
  failed : Nat
  timedOut : Nat
  deriving DecidableEq, Repr

namespace Report

def empty : Report := ⟨0, 0, 0⟩

def total (r : Report) : Nat := r.succeeded + r.failed + r.timedOut

def isClean (r : Report) : Bool := r.failed == 0 && r.timedOut == 0

end Report

inductive Outcome where
  | succeeded
  | failed (e : RegistrationError)
  | timedOut
  deriving DecidableEq

def Report.count (r : Report) : Outcome → Report
  | .succeeded => { r with succeeded := r.succeeded + 1 }
  | .failed _ => { r with failed := r.failed + 1 }
  | .timedOut => { r with timedOut := r.timedOut + 1 }

/-- Deleting what is not registered succeeds. -/
def outcome : Task → Except RegistrationError Unit → Outcome
  | _, .ok _ => .succeeded
  | _, .error .timeout => .timedOut
  | .delete .., .error (.notFound _) => .succeeded
  | _, .error e => .failed e

/-- A request under way: the instant it ends, and the answer unless it is cut off. -/
structure Flight where
  task : Task
  ends : Nat
  conduct : Option Conduct

/-- Starts a request at an instant, to be cut off after the given time. -/
def launch (g : Registry) (task : Task) (now budget : Nat) : Flight × Registry :=
  let (conduct, g) := g.start task
  if conduct.delay ≤ budget then (⟨task, now + conduct.delay, some conduct⟩, g)
  else (⟨task, now + budget, none⟩, g)

def land (g : Registry) (flight : Flight) : Outcome × Registry :=
  match flight.conduct with
  | none => (.timedOut, g)
  | some conduct =>
    let (answer, g) := g.answer flight.task conduct.refusal
    (outcome flight.task answer, g)

structure Progress where
  now : Nat
  report : Report
  registry : Registry

def Progress.land (p : Progress) (flight : Flight) : Progress :=
  let (o, g) := Dispatch.land p.registry flight
  { p with report := p.report.count o, registry := g }

/-- Requests one task after the other until one is accepted; the tasks after it are left. -/
def oneByOne (limits : Limits) (p : Progress) : List Task → Progress × List Task
  | [] => (p, [])
  | task :: tasks =>
    if limits.batchTimeout ≤ p.now then
      oneByOne limits { p with report := p.report.count .timedOut } tasks
    else
      let (flight, g) :=
        launch p.registry task p.now (min limits.itemTimeout (limits.batchTimeout - p.now))
      let (o, g) := land g flight
      let p : Progress := ⟨flight.ends, p.report.count o, g⟩
      if o = .succeeded then (p, tasks) else oneByOne limits p tasks

/-- The element at a position among those that qualify, and all others in their order. -/
def pluck? {α : Type} (q : α → Bool) : Nat → List α → Option (α × List α)
  | _, [] => none
  | i, a :: as =>
    if q a then
      match i with
      | 0 => some (a, as)
      | i + 1 => (pluck? q i as).map fun (b, bs) => (b, a :: bs)
    else (pluck? q i as).map fun (b, bs) => (b, a :: bs)

section Pluck

variable {α : Type} {q : α → Bool} {i : Nat} {as bs : List α} {b : α}

theorem eq_of_pluck? (h : pluck? q i as = some (b, bs)) :
    ∃ before after, as = before ++ b :: after ∧ bs = before ++ after ∧ q b ∧
      (i = 0 → ∀ a ∈ before, q a = false) := by
  induction as generalizing i bs with
  | nil => simp [pluck?] at h
  | cons a as ih =>
    have hlater {j : Nat} (hj : i = 0 → q a = false ∧ j = 0)
        (h : (pluck? q j as).map (fun (b, bs) => (b, a :: bs)) = some (b, bs)) :
        ∃ before after, a :: as = before ++ b :: after ∧ bs = before ++ after ∧ q b ∧
          (i = 0 → ∀ a ∈ before, q a = false) := by
      obtain ⟨⟨c, cs⟩, hplucked, h⟩ := Option.map_eq_some_iff.mp h
      cases h
      obtain ⟨before, after, rfl, rfl, hb, hfirst⟩ := ih hplucked
      exact ⟨a :: before, after, rfl, rfl, hb,
        fun hi => List.forall_mem_cons.mpr ⟨(hj hi).1, hfirst (hj hi).2⟩⟩
    unfold pluck? at h
    split at h
    · rename_i ha
      cases i with
      | zero =>
        cases h
        exact ⟨[], as, rfl, rfl, ha, fun _ => List.forall_mem_nil _⟩
      | succ i => exact hlater nofun h
    · rename_i ha
      exact hlater (fun hi => ⟨by simpa using ha, hi⟩) h

theorem isSome_pluck? (h : i < as.countP q) : (pluck? q i as).isSome := by
  induction as generalizing i with
  | nil => simp at h
  | cons a as ih =>
    unfold pluck?
    split
    · rename_i ha
      cases i with
      | zero => rfl
      | succ i => simpa using ih (by simpa [ha] using h)
    · rename_i ha
      simpa using ih (by simpa [ha] using h)

end Pluck

/-- The tasks after the first that is accepted: the requests under way and the tasks that wait. -/
structure Together where
  turns : Nat
  progress : Progress
  flying : List Flight
  waiting : List Task

namespace Together

def isOver (now : Nat) (flight : Flight) : Bool := flight.ends ≤ now

def landable (t : Together) : Nat := t.flying.countP (isOver t.progress.now)

def hasRoom (limits : Limits) (t : Together) : Bool := t.flying.length < limits.concurrency

def startable (limits : Limits) (t : Together) : Nat := t.waiting.countP fun _ => t.hasRoom limits

def land? (i : Nat) (t : Together) : Option Together := do
  let (flight, flying) ← pluck? (isOver t.progress.now) i t.flying
  return ⟨t.turns + 1, t.progress.land flight, flying, t.waiting⟩

def start? (limits : Limits) (i : Nat) (t : Together) : Option Together := do
  let (task, waiting) ← pluck? (fun _ => t.hasRoom limits) i t.waiting
  let (flight, g) := launch t.progress.registry task t.progress.now limits.itemTimeout
  return ⟨t.turns + 1, { t.progress with registry := g }, t.flying ++ [flight], waiting⟩

def pick (limits : Limits) (t : Together) : Nat :=
  let g := t.progress.registry
  g.schedule g.requests t.turns % (t.landable + t.startable limits)

def turn? (limits : Limits) (t : Together) : Option Together :=
  let i := t.pick limits
  if i < t.landable then t.land? i else t.start? limits (i - t.landable)

/-- The next instant at which a request ends, or at which the batch does. -/
def nextInstant (limits : Limits) : List Flight → Nat
  | [] => limits.batchTimeout
  | flight :: flying => min flight.ends (nextInstant limits flying)

def advance (limits : Limits) (t : Together) : Together :=
  { t with progress := { t.progress with now := nextInstant limits t.flying } }

/-- Gives up the requests under way and the tasks that wait. -/
def abandon (t : Together) : Progress :=
  let r := t.progress.report
  { t.progress with
    report := { r with timedOut := r.timedOut + t.flying.length + t.waiting.length } }

/-- What a turn may do. First come, first served, no request that is over is passed over, and the
tasks are started in order. -/
inductive Turn (limits : Limits) (t : Together) : Together → Prop
  | land {before after : List Flight} {flight : Flight}
      (hflying : t.flying = before ++ flight :: after) (hover : isOver t.progress.now flight)
      (hfirst : t.progress.registry.schedule = Registry.inTurn →
        ∀ other ∈ before, isOver t.progress.now other = false) :
      Turn limits t ⟨t.turns + 1, t.progress.land flight, before ++ after, t.waiting⟩
  | start {before after : List Task} {task : Task} {flight : Flight} {g : Registry}
      (hroom : t.flying.length < limits.concurrency) (hwaiting : t.waiting = before ++ task :: after)
      (hlaunch : launch t.progress.registry task t.progress.now limits.itemTimeout = (flight, g))
      (hfirst : t.progress.registry.schedule = Registry.inTurn → before = [] ∧ t.landable = 0) :
      Turn limits t
        ⟨t.turns + 1, { t.progress with registry := g }, t.flying ++ [flight], before ++ after⟩

section Turns

variable {limits : Limits} {t t' : Together}

theorem pick_eq_zero (limits : Limits) (h : t.progress.registry.schedule = Registry.inTurn) :
    t.pick limits = 0 := by
  simp [pick, h, Registry.inTurn]

theorem turn_of_turn? (h : t.turn? limits = some t') : t.Turn limits t' := by
  unfold turn? at h
  dsimp only at h
  split at h
  · obtain ⟨⟨flight, flying⟩, hplucked, h⟩ := Option.bind_eq_some_iff.mp h
    cases h
    obtain ⟨before, after, hflying, rfl, hover, hfirst⟩ := eq_of_pluck? hplucked
    exact .land hflying hover fun hturn => hfirst (pick_eq_zero limits hturn)
  · rename_i hover
    obtain ⟨⟨task, waiting⟩, hplucked, h⟩ := Option.bind_eq_some_iff.mp h
    cases h
    obtain ⟨before, after, hwaiting, rfl, hroom, hfirst⟩ := eq_of_pluck? hplucked
    refine .start (of_decide_eq_true hroom) hwaiting rfl fun hturn => ?_
    have hpick := pick_eq_zero limits hturn
    refine ⟨List.eq_nil_iff_forall_not_mem.mpr fun a ha => ?_, by omega⟩
    have hnone := hfirst (by omega) a ha
    rw [hroom] at hnone
    cases hnone

/-- There is no turn only if no request is over and no task may be started. -/
theorem ready_eq_zero (h : t.turn? limits = none) : t.landable + t.startable limits = 0 := by
  refine Nat.eq_zero_of_not_pos fun hready => ?_
  have hpick : t.pick limits < t.landable + t.startable limits := Nat.mod_lt _ hready
  unfold turn? at h
  dsimp only at h
  split at h
  · rename_i hover
    obtain ⟨plucked, hplucked⟩ := Option.isSome_iff_exists.mp (isSome_pluck? hover)
    simp [land?, hplucked] at h
  · have hwaiting : t.pick limits - t.landable < t.startable limits := by omega
    obtain ⟨plucked, hplucked⟩ := Option.isSome_iff_exists.mp (isSome_pluck? hwaiting)
    simp [start?, hplucked] at h

/-- Falls with every turn and with every instant. -/
def left (limits : Limits) (t : Together) : Nat :=
  limits.batchTimeout - t.progress.now + 2 * t.waiting.length + t.flying.length

theorem Turn.left_lt (h : t.Turn limits t') : t'.left limits < t.left limits := by
  cases h with
  | land hflying _ _ =>
    simp [left, Progress.land, hflying]
  | start _ hwaiting _ _ =>
    simp [left, hwaiting]
    omega

theorem nextInstant_le (limits : Limits) (flying : List Flight) :
    nextInstant limits flying ≤ limits.batchTimeout := by
  induction flying with
  | nil => exact Nat.le_refl _
  | cons flight flying ih => exact Nat.le_trans (Nat.min_le_right ..) ih

theorem lt_nextInstant {now : Nat} {flying : List Flight} (hnow : now < limits.batchTimeout)
    (hflying : ∀ flight ∈ flying, now < flight.ends) : now < nextInstant limits flying := by
  induction flying with
  | nil => exact hnow
  | cons flight flying ih =>
    obtain ⟨hfirst, hrest⟩ := List.forall_mem_cons.mp hflying
    exact Nat.lt_min.mpr ⟨hfirst, ih hrest⟩

/-- At an instant without a turn no request is over, so the next instant is later. -/
theorem left_advance_lt (hnow : t.progress.now < limits.batchTimeout) (h : t.turn? limits = none) :
    (t.advance limits).left limits < t.left limits := by
  have hover : t.landable = 0 := Nat.eq_zero_of_add_eq_zero_right (ready_eq_zero h)
  have hflying : ∀ flight ∈ t.flying, t.progress.now < flight.ends := by
    simpa [landable, isOver] using hover
  have hlater := lt_nextInstant hnow hflying
  have hbound := nextInstant_le limits t.flying
  simp only [left, advance]
  omega

end Turns

/-- Takes turns until none is left, and goes on to the next instant then. -/
def run (limits : Limits) (t : Together) : Progress :=
  if _hnow : limits.batchTimeout ≤ t.progress.now then t.abandon
  else
    match _hturn : t.turn? limits with
    | some t' => run limits t'
    | none =>
      if t.flying.isEmpty && t.waiting.isEmpty then t.progress else run limits (t.advance limits)
termination_by t.left limits
decreasing_by
  · exact (turn_of_turn? _hturn).left_lt
  · exact left_advance_lt (Nat.lt_of_not_le _hnow) _hturn

/-- What a run may do, whatever the schedule. -/
inductive Runs (limits : Limits) : Together → Progress → Prop
  | abandoned {t : Together} (hnow : limits.batchTimeout ≤ t.progress.now) : Runs limits t t.abandon
  | turn {t t' : Together} {p : Progress} (hnow : t.progress.now < limits.batchTimeout)
      (hturn : t.Turn limits t') (hrest : Runs limits t' p) : Runs limits t p
  | done {t : Together} (hnow : t.progress.now < limits.batchTimeout) (hflying : t.flying = [])
      (hwaiting : t.waiting = []) : Runs limits t t.progress
  | later {t : Together} {p : Progress} (hnow : t.progress.now < limits.batchTimeout)
      (hready : t.landable + t.startable limits = 0) (hleft : t.flying ≠ [] ∨ t.waiting ≠ [])
      (hrest : Runs limits (t.advance limits) p) : Runs limits t p

theorem runs_run (limits : Limits) (t : Together) : t.Runs limits (t.run limits) := by
  fun_induction run limits t with
  | case1 t hnow => exact .abandoned hnow
  | case2 t hnow t' hturn ih => exact .turn (Nat.lt_of_not_le hnow) (turn_of_turn? hturn) ih
  | case3 t hnow hturn hnone =>
    obtain ⟨hflying, hwaiting⟩ := Bool.and_eq_true_iff.mp hnone
    exact .done (Nat.lt_of_not_le hnow) (List.isEmpty_iff.mp hflying) (List.isEmpty_iff.mp hwaiting)
  | case4 t hnow hturn hsome ih =>
    have hleft : t.flying ≠ [] ∨ t.waiting ≠ [] := by
      simpa [-not_and, Classical.not_and_iff_not_or_not] using hsome
    exact .later (Nat.lt_of_not_le hnow) (ready_eq_zero hturn) hleft ih

end Together

end Dispatch

def dispatch (limits : Dispatch.Limits) (tasks : List Task) : StateM Registry Dispatch.Report :=
  fun g =>
    let (p, waiting) := Dispatch.oneByOne limits ⟨0, .empty, g⟩ tasks
    let p := Dispatch.Together.run limits ⟨0, p, [], waiting⟩
    (p.report, p.registry)

end ContentSpaces
