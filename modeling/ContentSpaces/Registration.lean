import ContentSpaces.Resource

/-!
# Registration

An outside service keeps a document per registered integration and rule. Every request that reaches
it is answered after some delay, and how it goes is fixed when it starts. An accepted upsert
registers its document, an accepted deletion removes one. Where several tasks could go on at once,
their schedule says which of them does.
-/

namespace ContentSpaces

structure Subject where
  kind : Kind
  id : String
  deriving DecidableEq, Repr

instance : Ord Subject := ⟨fun a b => (compare a.kind b.kind).then (compare a.id b.id)⟩

instance : Std.TransOrd Subject :=
  inferInstanceAs (Std.TransCmp (compareLex (compareOn Subject.kind) (compareOn Subject.id)))

instance : Std.LawfulEqOrd Subject where
  compare_self := Std.ReflCmp.compare_self
  eq_of_compare {a b} h := by
    obtain ⟨h1, h2⟩ := Ordering.then_eq_eq.mp h
    cases a
    cases b
    simp only at h1 h2
    rw [Std.LawfulEqCmp.eq_of_compare h1, Std.LawfulEqCmp.eq_of_compare h2]

inductive RegistrationError where
  | notFound (id : String)
  | rejected (reason : String)
  | unavailable (reason : String)
  | timeout
  deriving DecidableEq, Repr

namespace RegistrationError

def message : RegistrationError → String
  | .notFound id => s!"resource not registered: {id}"
  | .rejected reason => s!"registration rejected: {reason}"
  | .unavailable reason => s!"registration service unavailable: {reason}"
  | .timeout => "registration timed out"

def isNotFound : RegistrationError → Bool
  | .notFound _ => true
  | _ => false

end RegistrationError

inductive Task where
  | upsert (kind : Kind) (space : Space) (document : Json)
  | delete (kind : Kind) (id : String)

namespace Task

def ofResource (r : Resource) : Task := .upsert r.kind r.space r.document

def upsert? (r : Resource) : Option Task :=
  if r.kind.isRegistrable then some (ofResource r) else none

def delete? (kind : Kind) (id : String) : Option Task :=
  if kind.isRegistrable then some (.delete kind id) else none

def kind : Task → Kind
  | .upsert kind _ _ => kind
  | .delete kind _ => kind

def id? : Task → Option String
  | .upsert _ _ document => document.stringField? "id"
  | .delete _ id => some id

/-- What the task is about; a document without ID is about nothing. -/
def subject? (task : Task) : Option Subject := task.id?.map fun id => ⟨task.kind, id⟩

end Task

abbrev Registered := Table Subject Json

namespace Registered

def accept (r : Registered) (task : Task) : Except RegistrationError Registered :=
  match task.subject? with
  | none => .error (.rejected "document has no id")
  | some subject =>
    match task with
    | .upsert _ _ document => .ok (r.insert subject document)
    | .delete .. =>
      if r.contains subject then .ok (r.erase subject) else .error (.notFound subject.id)

end Registered

/-- How a request goes: when it is answered, in milliseconds, and the error it is refused with. -/
structure Conduct where
  delay : Nat
  refusal : Option RegistrationError

abbrev Conducts := Nat → Subject → Conduct

/-- Which of the tasks that could go on does, by the number of requests so far and of turns in the
batch; it is counted round their number. -/
abbrev Schedule := Nat → Nat → Nat

/-- What is registered, how and in which order requests go, and counts of the requests. -/
structure Registry where
  registered : Registered
  conducts : Conducts
  schedule : Schedule
  requests : Nat
  inFlight : Nat
  maxInFlight : Nat

namespace Registry

/-- Accepts every request without delay. -/
def accepting : Conducts := fun _ _ => ⟨0, none⟩

/-- First come, first served. -/
def inTurn : Schedule := fun _ _ => 0

def empty (conducts : Conducts) : Registry := ⟨.empty, conducts, inTurn, 0, 0, 0⟩

/-- Lets a request in; one without subject is answered at the door. -/
def start (g : Registry) (task : Task) : Conduct × Registry :=
  match task.subject? with
  | none => (⟨0, none⟩, g)
  | some subject =>
    (g.conducts g.requests subject,
      { g with
        requests := g.requests + 1
        inFlight := g.inFlight + 1
        maxInFlight := max g.maxInFlight (g.inFlight + 1) })

def answer (g : Registry) (task : Task) (refusal : Option RegistrationError) :
    Except RegistrationError Unit × Registry :=
  let g := if task.subject?.isSome then { g with inFlight := g.inFlight - 1 } else g
  match refusal with
  | some e => (.error e, g)
  | none =>
    match g.registered.accept task with
    | .ok registered => (.ok (), { g with registered := registered })
    | .error e => (.error e, g)

/-- Makes a request and waits for its answer, however long it takes. -/
def request (task : Task) : StateM Registry (Except RegistrationError Unit) := fun g =>
  let (conduct, g) := g.start task
  g.answer task conduct.refusal

/-- How requests go when some IDs are refused and some answered an hour late. -/
def conductsOf (refused late : List String) (delay : Nat) : Conducts := fun _ subject =>
  { delay := delay + if late.contains subject.id then 3600000 else 0
    refusal :=
      if refused.contains subject.id then some (.rejected s!"{subject.id} refused") else none }

end Registry

end ContentSpaces
