import ContentSpaces.Proofs.Registration.Protocol
import Mathlib.Data.List.FinRange

/-!
# Batches follow the protocol

A dispatched batch is a run of the protocol: its requests start and end as the steps say, the service
is asked by them and by nothing else, and the report it returns is that of the run. So the bounds of
the protocol are bounds of every batch.
-/

namespace ContentSpaces

namespace Dispatch

variable {ι : Type}

/-- The service, and how the requests go that it has been asked. -/
structure Service (ι : Type) where
  registry : Registry
  asked : List (ι × Conduct)

inductive Service.Step (task : ι → Task) : Service ι → Event ι → Service ι → Prop
  | start {v : Service ι} (x : ι) :
      Step task v (.start x)
        ⟨(v.registry.start (task x)).2, (x, (v.registry.start (task x)).1) :: v.asked⟩
  | answer {v : Service ι} {x : ι} {conduct : Conduct} (hasked : (x, conduct) ∈ v.asked) :
      Step task v
        (.finish x (outcome (task x) (v.registry.answer (task x) conduct.refusal).1))
        ⟨(v.registry.answer (task x) conduct.refusal).2, v.asked⟩
  | cut {v : Service ι} (x : ι) : Step task v (.finish x .timedOut) v
  | quiet {v : Service ι} : Step task v .quiet v

/-- The dispatcher gets from one stage to another with requests that the service answers so. -/
def Realises (task : ι → Task) (concurrency : Nat) (s : Stage ι) (v : Service ι) (s' : Stage ι)
    (v' : Service ι) : Prop :=
  ∃ es, Path (Step concurrency) s es s' ∧ Path (Service.Step task) v es v'

section Realises

variable {task : ι → Task} {concurrency : Nat} {s mid s' : Stage ι} {v vmid v' : Service ι}
  {e : Event ι}

theorem Realises.refl : Realises task concurrency s v s v := ⟨[], .nil, .nil⟩

theorem Realises.trans (h : Realises task concurrency s v mid vmid)
    (h' : Realises task concurrency mid vmid s' v') : Realises task concurrency s v s' v' := by
  obtain ⟨es, hstage, hservice⟩ := h
  obtain ⟨es', hstage', hservice'⟩ := h'
  exact ⟨es ++ es', hstage.append hstage', hservice.append hservice'⟩

theorem Realises.step (hstage : Step concurrency s e mid) (hservice : Service.Step task v e vmid)
    (h : Realises task concurrency mid vmid s' v') : Realises task concurrency s v s' v' := by
  obtain ⟨es, hstage', hservice'⟩ := h
  exact ⟨e :: es, .cons hstage hstage', .cons hservice hservice'⟩

end Realises

/-- The flight is the request of a task that the service has been asked. -/
structure Carries (task : ι → Task) (v : Service ι) (x : ι) (flight : Flight) : Prop where
  task_eq : flight.task = task x
  asked : ∀ conduct, flight.conduct = some conduct → (x, conduct) ∈ v.asked

section Flights

variable {task : ι → Task} {v : Service ι} {x : ι} {flight : Flight}

theorem Carries.mono (h : Carries task v x flight) {v' : Service ι}
    (hasked : ∀ entry ∈ v.asked, entry ∈ v'.asked) : Carries task v' x flight :=
  ⟨h.task_eq, fun conduct hconduct => hasked _ (h.asked conduct hconduct)⟩

theorem service_start (task : ι → Task) (v : Service ι) (x : ι) (now budget : Nat) :
    ∃ conduct, Service.Step task v (.start x)
        ⟨(launch v.registry (task x) now budget).2, (x, conduct) :: v.asked⟩ ∧
      Carries task ⟨(launch v.registry (task x) now budget).2, (x, conduct) :: v.asked⟩ x
        (launch v.registry (task x) now budget).1 := by
  refine ⟨(v.registry.start (task x)).1, ?_, ?_⟩
  · unfold launch
    dsimp only
    split <;> exact .start x
  · unfold launch
    dsimp only
    split
    · refine ⟨rfl, fun conduct hconduct => ?_⟩
      cases hconduct
      exact List.mem_cons_self
    · exact ⟨rfl, nofun⟩

theorem Carries.service_land (h : Carries task v x flight) :
    Service.Step task v (.finish x (land v.registry flight).1)
      ⟨(land v.registry flight).2, v.asked⟩ := by
  unfold land
  cases hconduct : flight.conduct with
  | none => exact .cut x
  | some conduct =>
    rw [h.task_eq]
    exact .answer (h.asked conduct hconduct)

end Flights

section Phases

variable {task : ι → Task} {limits : Limits} {p : Progress} {t t' : Together} {v : Service ι}
  {pool : Pool ι} {flights : List (ι × Flight)} {xs : List ι}

/-- The first phase leaves the tasks after the first that was accepted. -/
theorem realises_oneByOne (task : ι → Task) (limits : Limits) (hv : v.registry = p.registry)
    (xs : List ι) :
    ∃ ys v', (oneByOne limits p (xs.map task)).2 = ys.map task ∧
      v'.registry = (oneByOne limits p (xs.map task)).1.registry ∧
      Realises task limits.concurrency (.oneByOne none xs p.report) v
        (.together (.spawn limits.concurrency ys) (oneByOne limits p (xs.map task)).1.report) v' := by
  induction xs generalizing p v with
  | nil => exact ⟨[], v, rfl, hv, .step .exhausted .quiet .refl⟩
  | cons x xs ih =>
    rw [List.map_cons]
    unfold oneByOne
    split
    · obtain ⟨ys, v', hys, hv', hrest⟩ := ih (p := { p with report := p.report.count .timedOut }) hv
      exact ⟨ys, v', hys, hv', .step .overdue .quiet hrest⟩
    · dsimp only
      rw [← hv]
      generalize min limits.itemTimeout (limits.batchTimeout - p.now) = budget
      obtain ⟨conduct, hstart, hcarries⟩ := service_start task v x p.now budget
      have hland := hcarries.service_land
      split
      · rename_i hsucceeded
        rw [hsucceeded] at hland ⊢
        exact ⟨xs, _, rfl, rfl, .step .request hstart (.step .accepted hland .refl)⟩
      · rename_i hother
        obtain ⟨ys, v', hys, hv', hrest⟩ := ih (p := ⟨_, _, _⟩) (v := ⟨_, _⟩) rfl
        exact ⟨ys, v', hys, hv', .step .request hstart (.step (.refused hother) hland hrest)⟩

def aloft (flights : List (ι × Flight)) (waiting : List ι) : List (ι × Status) :=
  flights.map (fun entry => (entry.1, .running)) ++ waiting.map (·, .waiting)

/-- A moment of the second phase: each request under way is one that the service has been asked and has
a permit, and what is spawned is these requests and the tasks that wait, in some order. -/
structure Holds (task : ι → Task) (limits : Limits) (t : Together) (v : Service ι) (pool : Pool ι)
    (flights : List (ι × Flight)) (xs : List ι) : Prop where
  flying : t.flying = flights.map Prod.snd
  waiting : t.waiting = xs.map task
  registry : v.registry = t.progress.registry
  permits : pool.permits + flights.length = limits.concurrency
  spawned : pool.spawned.Perm (aloft flights xs)
  carries : ∀ entry ∈ flights, Carries task v entry.1 entry.2

theorem aloft_perm_running (before after : List (ι × Flight)) (entry : ι × Flight) (xs : List ι) :
    (aloft (before ++ entry :: after) xs).Perm
      ((entry.1, .running) :: aloft (before ++ after) xs) := by
  simp [aloft, List.perm_middle]

theorem aloft_perm_waiting (flights : List (ι × Flight)) (x : ι) (before after : List ι) :
    (aloft flights (before ++ x :: after)).Perm
      ((x, .waiting) :: aloft flights (before ++ after)) := by
  have hmiddle : (before.map (·, Status.waiting) ++ (x, Status.waiting) :: after.map (·, .waiting)).Perm
      ((x, .waiting) :: (before.map (·, .waiting) ++ after.map (·, .waiting))) := List.perm_middle
  have hrunning := hmiddle.append_left (flights.map fun entry => (entry.1, Status.running))
  simpa [aloft] using hrunning.trans List.perm_middle

/-- A spawned task may be taken from among the others. -/
theorem exists_spawned {spawned rest : List (ι × Status)} {entry : ι × Status}
    (h : spawned.Perm (entry :: rest)) :
    ∃ before after, spawned = before ++ entry :: after ∧ (before ++ after).Perm rest := by
  obtain ⟨before, after, rfl⟩ := List.append_of_mem (h.mem_iff.mpr List.mem_cons_self)
  exact ⟨before, after, rfl, (List.perm_middle.symm.trans h).cons_inv⟩

theorem Holds.land {before after : List (ι × Flight)} {entry : ι × Flight}
    (h : Holds task limits t v pool (before ++ entry :: after) xs) (turns : Nat) :
    ∃ v' pool', Realises task limits.concurrency (.together pool t.progress.report) v
        (.together pool' (t.progress.land entry.2).report) v' ∧
      Holds task limits
        ⟨turns, t.progress.land entry.2, (before ++ after).map Prod.snd, t.waiting⟩ v' pool'
        (before ++ after) xs := by
  obtain ⟨permits, spawned⟩ := pool
  have hentry : Carries task v entry.1 entry.2 := h.carries entry (by simp)
  have hpermits := h.permits
  obtain ⟨first, last, rfl, hrest⟩ := exists_spawned (h.spawned.trans (aloft_perm_running ..))
  have hland : Dispatch.land t.progress.registry entry.2 = Dispatch.land v.registry entry.2 := by
    rw [h.registry]
  refine ⟨⟨(Dispatch.land v.registry entry.2).2, v.asked⟩, ⟨permits + 1, first ++ last⟩, ?_, ?_⟩
  · rw [Progress.land, hland]
    exact .step (.work (.release entry.1 _)) hentry.service_land (.step .join .quiet .refl)
  · constructor
    · rfl
    · exact h.waiting
    · rw [Progress.land, hland]
    · simp only [List.length_append, List.length_cons] at hpermits ⊢
      omega
    · exact hrest
    · intro other hother
      refine (h.carries other ?_).mono fun _ => id
      exact List.mem_append.mpr ((List.mem_append.mp hother).imp id (List.mem_cons_of_mem _))

theorem Holds.start {before after : List ι} {x : ι} {flight : Flight} {g : Registry}
    (h : Holds task limits t v pool flights (before ++ x :: after))
    (hroom : flights.length < limits.concurrency)
    (hlaunch : launch t.progress.registry (task x) t.progress.now limits.itemTimeout = (flight, g))
    (turns : Nat) :
    ∃ v' pool', Realises task limits.concurrency (.together pool t.progress.report) v
        (.together pool' t.progress.report) v' ∧
      Holds task limits ⟨turns, { t.progress with registry := g }, t.flying ++ [flight],
        (before ++ after).map task⟩ v' pool' (flights ++ [(x, flight)]) (before ++ after) := by
  obtain ⟨permits, spawned⟩ := pool
  have hpermits := h.permits
  obtain ⟨permits, rfl⟩ : ∃ n, permits = n + 1 := ⟨permits - 1, by dsimp only at hpermits; omega⟩
  obtain ⟨first, last, rfl, hrest⟩ := exists_spawned (h.spawned.trans (aloft_perm_waiting ..))
  obtain ⟨conduct, hstart, hcarries⟩ := service_start task v x t.progress.now limits.itemTimeout
  rw [h.registry, hlaunch] at hstart hcarries
  refine ⟨⟨g, (x, conduct) :: v.asked⟩, ⟨permits, first ++ (x, .running) :: last⟩,
    .step (.work (.acquire x)) hstart .refl, ?_⟩
  constructor
  · simp [h.flying]
  · rfl
  · rfl
  · simp only [List.length_append, List.length_singleton] at hpermits ⊢
    omega
  · have hrunning := aloft_perm_running flights [] (x, flight) (before ++ after)
    rw [List.append_nil] at hrunning
    exact (List.perm_middle.trans (hrest.cons _)).trans hrunning.symm
  · intro entry hentry
    rcases List.mem_append.mp hentry with hentry | hentry
    · exact (h.carries entry hentry).mono fun _ => List.mem_cons_of_mem _
    · obtain rfl := List.mem_singleton.mp hentry
      exact hcarries

theorem Holds.turn (h : Holds task limits t v pool flights xs) (hturn : t.Turn limits t') :
    ∃ v' pool' flights' xs', Realises task limits.concurrency
        (.together pool t.progress.report) v (.together pool' t'.progress.report) v' ∧
      Holds task limits t' v' pool' flights' xs' := by
  cases hturn with
  | land hflying _ _ =>
    obtain ⟨before, rest, rfl, rfl, hrest⟩ := List.map_eq_append_iff.mp (h.flying.symm.trans hflying)
    obtain ⟨entry, after, rfl, rfl, rfl⟩ := List.map_eq_cons_iff.mp hrest
    obtain ⟨v', pool', hrealises, hholds⟩ := h.land (t.turns + 1)
    rw [List.map_append] at hholds
    exact ⟨v', pool', before ++ after, xs, hrealises, hholds⟩
  | start hroom hwaiting hlaunch _ =>
    obtain ⟨before, rest, rfl, rfl, hrest⟩ := List.map_eq_append_iff.mp (h.waiting.symm.trans hwaiting)
    obtain ⟨x, after, rfl, rfl, rfl⟩ := List.map_eq_cons_iff.mp hrest
    rw [h.flying, List.length_map] at hroom
    obtain ⟨v', pool', hrealises, hholds⟩ := h.start hroom hlaunch (t.turns + 1)
    rw [List.map_append] at hholds
    exact ⟨v', pool', _, before ++ after, hrealises, hholds⟩

/-- What is spawned is given up when the time of the batch is over. -/
theorem Holds.abandon (h : Holds task limits t v pool flights xs) :
    Realises task limits.concurrency (.together pool t.progress.report) v
      (.returned pool t.abandon.report) v := by
  have hlength := h.spawned.length_eq
  have hdeadline : Step limits.concurrency (.together pool t.progress.report) .quiet (.returned pool
      { t.progress.report with
        timedOut := t.progress.report.timedOut + pool.spawned.length }) := .deadline
  have hreport : t.abandon.report = { t.progress.report with
      timedOut := t.progress.report.timedOut + pool.spawned.length } := by
    simp [Together.abandon, hlength, aloft, h.flying, h.waiting, Nat.add_assoc]
  rw [hreport]
  exact .step hdeadline .quiet .refl

/-- The second phase goes on, turn after turn and instant after instant, until its tasks are done or
given up. -/
theorem Holds.realises {p : Progress} (h : Holds task limits t v pool flights xs)
    (hruns : t.Runs limits p) :
    ∃ pool' v', v'.registry = p.registry ∧ Realises task limits.concurrency
      (.together pool t.progress.report) v (.returned pool' p.report) v' := by
  induction hruns generalizing v pool flights xs with
  | abandoned _ => exact ⟨pool, v, h.registry, h.abandon⟩
  | turn _ hturn _ ih =>
    obtain ⟨v', pool', flights', xs', hfirst, hholds⟩ := h.turn hturn
    obtain ⟨pool'', v'', hregistry, hrest⟩ := ih hholds
    exact ⟨pool'', v'', hregistry, hfirst.trans hrest⟩
  | @done t _ hflying hwaiting =>
    obtain ⟨permits, spawned⟩ := pool
    have hflights : flights = [] := List.map_eq_nil_iff.mp (h.flying.symm.trans hflying)
    have hxs : xs = [] := List.map_eq_nil_iff.mp (h.waiting.symm.trans hwaiting)
    subst hflights hxs
    obtain rfl : spawned = [] := List.Perm.eq_nil h.spawned
    exact ⟨_, v, h.registry, .step .drained .quiet .refl⟩
  | later _ _ _ _ ih =>
    exact ih ⟨h.flying, h.waiting, h.registry, h.permits, h.spawned, h.carries⟩

end Phases

/-- The dispatcher's run is a run of the protocol. -/
theorem realises_dispatch (task : ι → Task) (limits : Limits) (xs : List ι) (g : Registry) :
    ∃ pool v', v'.registry = (dispatch limits (xs.map task) g).2 ∧
      Realises task limits.concurrency (.outset xs) ⟨g, []⟩
        (.returned pool (dispatch limits (xs.map task) g).1) v' := by
  have hg : (⟨g, []⟩ : Service ι).registry = (⟨0, .empty, g⟩ : Progress).registry := rfl
  obtain ⟨ys, v, hys, hv, hfirst⟩ := realises_oneByOne task limits hg xs
  have hspawned : Holds task limits
      ⟨0, (oneByOne limits ⟨0, .empty, g⟩ (xs.map task)).1, [],
        (oneByOne limits ⟨0, .empty, g⟩ (xs.map task)).2⟩ v (.spawn limits.concurrency ys) [] ys :=
    ⟨rfl, hys, hv, rfl, .refl _, List.forall_mem_nil _⟩
  obtain ⟨pool, v', hv', hsecond⟩ := hspawned.realises (Together.runs_run limits _)
  exact ⟨pool, v', hv', hfirst.trans hsecond⟩

end Dispatch

/-- In every run of the protocol the bounds hold at every point and the report that is returned counts
every task. A dispatched batch is such a run, with the requests that the service is asked. -/
theorem dispatch_keeps_bounds {limits : Dispatch.Limits} (hconcurrency : 1 ≤ limits.concurrency)
    (tasks : List Task) (g : Registry) :
    (∀ es s, Path (Dispatch.Step limits.concurrency)
        (.outset (List.finRange tasks.length)) es s →
      Dispatch.Bounded limits.concurrency tasks.length es s) ∧
    (∃ es pool asked, Path (Dispatch.Step limits.concurrency) (.outset (List.finRange tasks.length))
        es (.returned pool (dispatch limits tasks g).1) ∧
      Path (Dispatch.Service.Step fun i : Fin tasks.length => tasks[i]) ⟨g, []⟩ es
        ⟨(dispatch limits tasks g).2, asked⟩) ∧
    (dispatch limits tasks g).1.total = tasks.length := by
  have hbounded (es : List (Dispatch.Event (Fin tasks.length))) (s : Dispatch.Stage (Fin tasks.length))
      (hpath : Path (Dispatch.Step limits.concurrency) (.outset (List.finRange tasks.length)) es s) :
      Dispatch.Bounded limits.concurrency tasks.length es s := by
    have h := Dispatch.bounded_of_path hconcurrency (List.nodup_finRange _) hpath
    rwa [List.length_finRange] at h
  obtain ⟨pool, v, hv, es, hstage, hservice⟩ := Dispatch.realises_dispatch
    (fun i : Fin tasks.length => tasks[i]) limits (List.finRange tasks.length) g
  have htasks : (List.finRange tasks.length).map (fun i : Fin tasks.length => tasks[i]) = tasks :=
    List.map_getElem_finRange tasks
  rw [htasks] at hv hstage
  refine ⟨hbounded, ⟨es, pool, v.asked, hstage, ?_⟩, (hbounded es _ hstage).total pool _ rfl⟩
  rw [← hv]
  exact hservice

section Trial

def trialConducts : Conducts := fun n _ => ⟨if n = 0 then 20000 else 0, none⟩

def trialTasks : List Task := [.delete .rule "a", .delete .rule "b", .delete .rule "c"]

/-- One request is cut off, the next is accepted, and the last is made in the second phase. -/
theorem trial_counted : 1 ≤ Dispatch.Limits.default.concurrency ∧
    (∀ es s, Path (Dispatch.Step 8) (.outset (List.finRange 3)) es s →
      Dispatch.Bounded 8 3 es s) ∧
    (∃ es pool asked,
      Path (Dispatch.Step 8) (.outset (List.finRange 3)) es (.returned pool ⟨2, 0, 1⟩) ∧
      Path (Dispatch.Service.Step fun i : Fin 3 => trialTasks[i]) ⟨.empty trialConducts, []⟩ es
        ⟨(dispatch .default trialTasks (.empty trialConducts)).2, asked⟩) ∧
    (dispatch .default trialTasks (.empty trialConducts)).1.total = 3 := by
  have hconcurrency : 1 ≤ Dispatch.Limits.default.concurrency := by decide
  have hreport : (dispatch .default trialTasks (.empty trialConducts)).1 = ⟨2, 0, 1⟩ := by
    decide +kernel
  have hkept := dispatch_keeps_bounds hconcurrency trialTasks (.empty trialConducts)
  rw [hreport] at hkept ⊢
  exact ⟨hconcurrency, hkept⟩

end Trial

end ContentSpaces
