import ContentSpaces.Registration.Dispatch

/-!
# The protocol of a batch

A batch as a system of steps, in whatever order its requests end and however each of them does. The
first phase has at most one request under way. In the second every task waits for a permit and holds
it while its request is under way; what has ended is counted once it is joined. The time of the batch
may be over at any step: all tasks not yet joined are counted as timed out, and whatever some of them
still do before they are dropped is counted no more.
-/

namespace ContentSpaces

inductive Path {σ α : Type} (step : σ → α → σ → Prop) : σ → List α → σ → Prop
  | nil {s : σ} : Path step s [] s
  | cons {s mid s' : σ} {a : α} {as : List α} (hstep : step s a mid) (hrest : Path step mid as s') :
      Path step s (a :: as) s'

theorem Path.append {σ α : Type} {step : σ → α → σ → Prop} {s mid s' : σ} {as as' : List α}
    (h : Path step s as mid) (h' : Path step mid as' s') : Path step s (as ++ as') s' := by
  induction h with
  | nil => exact h'
  | cons hstep _ ih => exact .cons hstep (ih h')

namespace Dispatch

variable {ι : Type}

/-- What a step does to the request of a task: it starts it, or ends it by an answer or by cutting it
off. -/
inductive Event (ι : Type) where
  | start (x : ι)
  | finish (x : ι) (o : Outcome)
  | quiet
  deriving DecidableEq

inductive Status where
  | waiting
  | running
  | ended (o : Outcome)
  deriving DecidableEq

def having (status : Status) (spawned : List (ι × Status)) : List ι :=
  (spawned.filter (·.2 = status)).map Prod.fst

/-- The tasks that have been spawned and not been joined, and the permits that none of them holds. -/
structure Pool (ι : Type) where
  permits : Nat
  spawned : List (ι × Status)

namespace Pool

def spawn (permits : Nat) (tasks : List ι) : Pool ι := ⟨permits, tasks.map (·, .waiting)⟩

inductive Step : Pool ι → Event ι → Pool ι → Prop
  | acquire {permits : Nat} {before after : List (ι × Status)} (x : ι) :
      Step ⟨permits + 1, before ++ (x, .waiting) :: after⟩ (.start x)
        ⟨permits, before ++ (x, .running) :: after⟩
  | release {permits : Nat} {before after : List (ι × Status)} (x : ι) (o : Outcome) :
      Step ⟨permits, before ++ (x, .running) :: after⟩ (.finish x o)
        ⟨permits + 1, before ++ (x, .ended o) :: after⟩

end Pool

inductive Stage (ι : Type) where
  | oneByOne (current : Option ι) (rest : List ι) (report : Report)
  | together (pool : Pool ι) (report : Report)
  | returned (pool : Pool ι) (report : Report)

namespace Stage

def outset (tasks : List ι) : Stage ι := .oneByOne none tasks .empty

def running : Stage ι → List ι
  | .oneByOne current _ _ => current.toList
  | .together pool _ => having .running pool.spawned
  | .returned pool _ => having .running pool.spawned

def unstarted : Stage ι → List ι
  | .oneByOne _ rest _ => rest
  | .together pool _ => having .waiting pool.spawned
  | .returned pool _ => having .waiting pool.spawned

end Stage

inductive Step (concurrency : Nat) : Stage ι → Event ι → Stage ι → Prop
  | request {x : ι} {rest : List ι} {report : Report} :
      Step concurrency (.oneByOne none (x :: rest) report) (.start x)
        (.oneByOne (some x) rest report)
  | overdue {x : ι} {rest : List ι} {report : Report} :
      Step concurrency (.oneByOne none (x :: rest) report) .quiet
        (.oneByOne none rest (report.count .timedOut))
  | refused {x : ι} {rest : List ι} {report : Report} {o : Outcome} (ho : o ≠ .succeeded) :
      Step concurrency (.oneByOne (some x) rest report) (.finish x o)
        (.oneByOne none rest (report.count o))
  | accepted {x : ι} {rest : List ι} {report : Report} :
      Step concurrency (.oneByOne (some x) rest report) (.finish x .succeeded)
        (.together (.spawn concurrency rest) (report.count .succeeded))
  | exhausted {report : Report} :
      Step concurrency (.oneByOne none [] report) .quiet (.together (.spawn concurrency []) report)
  | work {pool pool' : Pool ι} {report : Report} {e : Event ι} (h : pool.Step e pool') :
      Step concurrency (.together pool report) e (.together pool' report)
  | join {permits : Nat} {before after : List (ι × Status)} {report : Report} {x : ι} {o : Outcome} :
      Step concurrency (.together ⟨permits, before ++ (x, .ended o) :: after⟩ report) .quiet
        (.together ⟨permits, before ++ after⟩ (report.count o))
  | drained {permits : Nat} {report : Report} :
      Step concurrency (.together ⟨permits, []⟩ report) .quiet (.returned ⟨permits, []⟩ report)
  | deadline {pool : Pool ι} {report : Report} :
      Step concurrency (.together pool report) .quiet
        (.returned pool { report with timedOut := report.timedOut + pool.spawned.length })
  -- Tasks that have been given up may go on until they are dropped.
  | straggle {pool pool' : Pool ι} {report : Report} {e : Event ι} (h : pool.Step e pool') :
      Step concurrency (.returned pool report) e (.returned pool' report)

section Having

variable {status : Status} {x : ι} {before after : List (ι × Status)}

@[simp]
theorem having_nil : having status ([] : List (ι × Status)) = [] := by
  simp [having]

@[simp]
theorem having_append : having status (before ++ after) =
    having status before ++ having status after := by
  simp [having]

@[simp]
theorem having_cons_self : having status ((x, status) :: after) = x :: having status after := by
  simp [having]

theorem having_cons_of_ne {other : Status} (h : other ≠ status) :
    having status ((x, other) :: after) = having status after := by
  simp [having, h]

theorem having_waiting (tasks : List ι) : having .waiting (tasks.map (·, Status.waiting)) = tasks := by
  induction tasks with
  | nil => rfl
  | cons x tasks ih => rw [List.map_cons, having_cons_self, ih]

theorem having_running (tasks : List ι) : having .running (tasks.map (·, Status.waiting)) = [] := by
  induction tasks with
  | nil => rfl
  | cons x tasks ih => rw [List.map_cons, having_cons_of_ne (by decide), ih]

end Having

theorem Report.total_count (r : Report) (o : Outcome) : (r.count o).total = r.total + 1 := by
  cases o <;> simp only [Report.count, Report.total] <;> omega

namespace Pool

variable {pool pool' : Pool ι} {e : Event ι}

def total (pool : Pool ι) : Nat := pool.permits + (having .running pool.spawned).length

theorem Step.length_spawned (h : pool.Step e pool') :
    pool'.spawned.length = pool.spawned.length := by
  cases h <;> simp

theorem Step.total_eq (h : pool.Step e pool') : pool'.total = pool.total := by
  cases h with
  | acquire x =>
    simp [total, having_cons_of_ne]
    omega
  | release x o =>
    simp [total, having_cons_of_ne]
    omega

end Pool

def Event.finishes [DecidableEq ι] (x : ι) : Event ι → Bool
  | .finish y _ => y = x
  | _ => false

section Balance

variable [DecidableEq ι] {concurrency : Nat} {pool pool' : Pool ι} {s s' : Stage ι} {e : Event ι}

theorem Pool.Step.count_waiting (h : pool.Step e pool') (x : ι) :
    [e].count (.start x) + (having .waiting pool'.spawned).count x =
      (having .waiting pool.spawned).count x := by
  cases h with
  | acquire y =>
    simp [having_cons_of_ne, List.count_cons]
    omega
  | release y o => simp [having_cons_of_ne]

theorem Pool.Step.count_running (h : pool.Step e pool') (x : ι) :
    (having .running pool'.spawned).count x + [e].countP (Event.finishes x) =
      (having .running pool.spawned).count x + [e].count (.start x) := by
  cases h with
  | acquire y =>
    simp [having_cons_of_ne, List.count_cons, Event.finishes]
    omega
  | release y o =>
    simp [having_cons_of_ne, List.count_cons, List.countP_cons, Event.finishes]
    omega

/-- A request that is started cannot be started again. -/
theorem Step.count_unstarted (h : Step concurrency s e s') (x : ι) :
    [e].count (.start x) + s'.unstarted.count x ≤ s.unstarted.count x := by
  cases h with
  | request => simp [Stage.unstarted, List.count_cons]; omega
  | overdue => simp [Stage.unstarted, List.count_cons]
  | refused _ => simp [Stage.unstarted]
  | accepted => simp [Stage.unstarted, Pool.spawn, having_waiting]
  | exhausted => simp [Stage.unstarted, Pool.spawn]
  | work h => exact Nat.le_of_eq (h.count_waiting x)
  | join => simp [Stage.unstarted, having_cons_of_ne]
  | drained => simp [Stage.unstarted]
  | deadline => simp [Stage.unstarted]
  | straggle h => exact Nat.le_of_eq (h.count_waiting x)

/-- What is under way has been started and not been ended. -/
theorem Step.count_running (h : Step concurrency s e s') (x : ι) :
    s'.running.count x + [e].countP (Event.finishes x) =
      s.running.count x + [e].count (.start x) := by
  cases h with
  | request => simp [Stage.running, Event.finishes, List.count_cons]
  | overdue => simp [Stage.running, Event.finishes]
  | refused _ => simp [Stage.running, Event.finishes, List.count_cons, List.countP_cons]
  | accepted =>
    simp [Stage.running, Event.finishes, List.count_cons, List.countP_cons, Pool.spawn, having_running]
  | exhausted => simp [Stage.running, Event.finishes, Pool.spawn]
  | work h => exact h.count_running x
  | join => simp [Stage.running, Event.finishes, having_cons_of_ne]
  | drained => simp [Stage.running, Event.finishes]
  | deadline => simp [Stage.running, Event.finishes]
  | straggle h => exact h.count_running x

end Balance

section Invariants

variable {concurrency : Nat} {s s' : Stage ι} {e : Event ι}

def Stage.Permitted (concurrency : Nat) : Stage ι → Prop
  | .oneByOne .. => True
  | .together pool _ => pool.total = concurrency
  | .returned pool _ => pool.total = concurrency

theorem Step.permitted (h : Step concurrency s e s') (hs : s.Permitted concurrency) :
    s'.Permitted concurrency := by
  cases h with
  | request => trivial
  | overdue => trivial
  | refused _ => trivial
  | accepted => simp [Stage.Permitted, Pool.total, Pool.spawn, having_running]
  | exhausted => simp [Stage.Permitted, Pool.total, Pool.spawn]
  | work h => exact h.total_eq.trans hs
  | join => simpa [Stage.Permitted, Pool.total, having_cons_of_ne] using hs
  | drained => exact hs
  | deadline => exact hs
  | straggle h => exact h.total_eq.trans hs

theorem Stage.Permitted.length_running (h : s.Permitted concurrency) (hpos : 1 ≤ concurrency) :
    s.running.length ≤ concurrency := by
  cases s with
  | oneByOne current rest report => cases current <;> simp [running, hpos]
  | together pool report => exact Nat.le.intro ((Nat.add_comm _ _).trans h)
  | returned pool report => exact Nat.le.intro ((Nat.add_comm _ _).trans h)

def Stage.Alone : Stage ι → Prop
  | .oneByOne .. => True
  | .together pool _ => pool.spawned = []
  | .returned pool _ => pool.spawned = []

/-- Only a request that succeeds lets tasks be spawned. -/
theorem Step.alone (h : Step concurrency s e s') (hs : s.Alone) :
    (∃ x, e = .finish x .succeeded) ∨ s'.Alone := by
  cases h with
  | request => exact .inr trivial
  | overdue => exact .inr trivial
  | refused _ => exact .inr trivial
  | accepted => exact .inl ⟨_, rfl⟩
  | exhausted => exact .inr rfl
  | work h => exact .inr (List.eq_nil_of_length_eq_zero (by rw [h.length_spawned, hs, List.length_nil]))
  | join => simp [Stage.Alone] at hs
  | drained => exact .inr rfl
  | deadline => exact .inr hs
  | straggle h =>
    exact .inr (List.eq_nil_of_length_eq_zero (by rw [h.length_spawned, hs, List.length_nil]))

theorem Stage.Alone.length_running (h : s.Alone) : s.running.length ≤ 1 := by
  cases s with
  | oneByOne current rest report => cases current <;> simp [running]
  | together pool report =>
    rw [running, h]
    simp
  | returned pool report =>
    rw [running, h]
    simp

def Stage.accounted : Stage ι → Nat
  | .oneByOne current rest report => report.total + current.toList.length + rest.length
  | .together pool report => report.total + pool.spawned.length
  | .returned _ report => report.total

theorem Step.accounted_eq (h : Step concurrency s e s') : s'.accounted = s.accounted := by
  cases h with
  | request => simp [Stage.accounted]; omega
  | overdue => simp [Stage.accounted, Report.total_count]; omega
  | refused _ => simp [Stage.accounted, Report.total_count]
  | accepted => simp [Stage.accounted, Report.total_count, Pool.spawn]
  | exhausted => simp [Stage.accounted, Pool.spawn]
  | work h => simp [Stage.accounted, h.length_spawned]
  | join => simp [Stage.accounted, Report.total_count]; omega
  | drained => simp [Stage.accounted]
  | deadline => simp [Stage.accounted, Report.total]; omega
  | straggle h => rfl

end Invariants

section Runs

variable {concurrency : Nat} {s s' : Stage ι} {es : List (Event ι)}

theorem permitted_of_path (h : Path (Step concurrency) s es s') (hs : s.Permitted concurrency) :
    s'.Permitted concurrency := by
  induction h with
  | nil => exact hs
  | cons hstep _ ih => exact ih (hstep.permitted hs)

theorem alone_of_path (h : Path (Step concurrency) s es s') (hs : s.Alone)
    (hnone : ∀ x, .finish x .succeeded ∉ es) : s'.Alone := by
  induction h with
  | nil => exact hs
  | cons hstep _ ih =>
    obtain ⟨x, rfl⟩ | halone := hstep.alone hs
    · exact absurd List.mem_cons_self (hnone x)
    · exact ih halone fun x hx => hnone x (List.mem_cons_of_mem _ hx)

theorem accounted_of_path (h : Path (Step concurrency) s es s') : s'.accounted = s.accounted := by
  induction h with
  | nil => rfl
  | cons hstep _ ih => exact ih.trans hstep.accounted_eq

variable [DecidableEq ι]

theorem count_unstarted_of_path (h : Path (Step concurrency) s es s') (x : ι) :
    es.count (.start x) + s'.unstarted.count x ≤ s.unstarted.count x := by
  induction h with
  | nil => simp
  | @cons s mid s' e es hstep _ ih =>
    have hfirst := hstep.count_unstarted x
    rw [← List.singleton_append, List.count_append]
    omega

theorem count_running_of_path (h : Path (Step concurrency) s es s') (x : ι) :
    s'.running.count x + es.countP (Event.finishes x) =
      s.running.count x + es.count (.start x) := by
  induction h with
  | nil => simp
  | @cons s mid s' e es hstep _ ih =>
    have hfirst := hstep.count_running x
    rw [← List.singleton_append, List.count_append, List.countP_append]
    omega

/-- What holds of the requests of so many tasks after the events, at a stage of the batch. -/
structure Bounded (concurrency tasks : Nat) (es : List (Event ι)) (s : Stage ι) : Prop where
  /-- What is under way has been started and has neither been answered nor cut off. -/
  running : s.running.Nodup ∧ ∀ x, x ∈ s.running ↔ .start x ∈ es ∧ ∀ o, .finish x o ∉ es
  once : ∀ x, es.count (.start x) ≤ 1
  within : s.running.length ≤ concurrency
  alone : (∀ x, .finish x .succeeded ∉ es) → s.running.length ≤ 1
  total : ∀ pool report, s = .returned pool report → report.total = tasks

theorem mem_running_iff (h : Path (Step concurrency) s es s') (hs : s.running = []) {x : ι}
    (honce : es.count (.start x) ≤ 1) :
    x ∈ s'.running ↔ .start x ∈ es ∧ ∀ o, .finish x o ∉ es := by
  have hcount := count_running_of_path h x
  rw [hs, List.count_nil] at hcount
  have hended : (∀ o, .finish x o ∉ es) ↔ es.countP (Event.finishes x) = 0 := by
    rw [List.countP_eq_zero]
    constructor
    · intro hnone e he hfinishes
      cases e with
      | finish y o =>
        obtain rfl : y = x := by simpa [Event.finishes] using hfinishes
        exact hnone o he
      | start y => cases hfinishes
      | quiet => cases hfinishes
    · intro hnone o ho
      exact hnone _ ho (by simp [Event.finishes])
  rw [hended, ← List.count_pos_iff, ← List.count_pos_iff]
  omega

/-- Whatever the requests do and whenever the time of the batch is over, the bounds hold at every
point. -/
theorem bounded_of_path {tasks : List ι} (hconcurrency : 1 ≤ concurrency) (hnodup : tasks.Nodup)
    (h : Path (Step concurrency) (.outset tasks) es s) : Bounded concurrency tasks.length es s := by
  have honce (x : ι) : es.count (.start x) ≤ 1 := by
    have hcount := count_unstarted_of_path h x
    have htask : tasks.count x ≤ 1 := List.nodup_iff_count.mp hnodup x
    simp only [Stage.outset, Stage.unstarted] at hcount
    omega
  constructor
  · have hnone : (Stage.outset tasks).running = [] := rfl
    constructor
    · refine List.nodup_iff_count.mpr fun x => ?_
      have hcount := count_running_of_path h x
      have hx := honce x
      rw [hnone, List.count_nil] at hcount
      omega
    · intro x
      exact mem_running_iff h hnone (honce x)
  · exact honce
  · exact (permitted_of_path h trivial).length_running hconcurrency
  · intro hnone
    exact (alone_of_path h trivial hnone).length_running
  · rintro pool report rfl
    have haccounted := accounted_of_path h
    simpa [Stage.accounted, Stage.outset, Report.empty, Report.total] using haccounted

end Runs

end Dispatch

end ContentSpaces
