import ContentSpaces.Sync.Replica

/-!
# What computations do to their state

A computation over the stores ends with a result or with an error, and what it did before an error
stays done. `Ensures` speaks of both ends at once, so a rule for a sequence of calls covers a
failure at any of them.
-/

namespace ContentSpaces

variable {ε σ α β : Type}

/-- A sequence returns if both parts do. -/
theorem bind_eq_ok_iff {act : EStateM ε σ α} {f : α → EStateM ε σ β} {s s' : σ} {b : β} :
    (act >>= f) s = .ok b s' ↔ ∃ a mid, act s = .ok a mid ∧ f a mid = .ok b s' := by
  show EStateM.bind act f s = _ ↔ _
  unfold EStateM.bind
  constructor
  · intro h
    split at h
    · rename_i hact
      exact ⟨_, _, hact, h⟩
    · cases h
  · rintro ⟨a, mid, ha, hb⟩
    rw [ha]
    exact hb

/-- A sequence fails if one of its parts does. -/
theorem bind_eq_error_iff {act : EStateM ε σ α} {f : α → EStateM ε σ β} {s s' : σ} {e : ε} :
    (act >>= f) s = .error e s' ↔
      act s = .error e s' ∨ ∃ a mid, act s = .ok a mid ∧ f a mid = .error e s' := by
  show EStateM.bind act f s = _ ↔ _
  unfold EStateM.bind
  constructor
  · intro h
    split at h
    · rename_i hact
      exact .inr ⟨_, _, hact, h⟩
    · rename_i hact
      exact .inl (hact.trans (by cases h; rfl))
  · rintro (h | ⟨a, mid, ha, he⟩)
    · rw [h]
    · rw [ha]
      exact he

theorem get_apply (s : σ) : (get : EStateM ε σ σ) s = .ok s s := rfl

theorem modify_apply (f : σ → σ) (s : σ) : (modify f : EStateM ε σ Unit) s = .ok ⟨⟩ (f s) := rfl

/-- The computation has returned with a result and a state that pass a test. -/
def returned (test : α → σ → Bool) : EStateM.Result ε σ α → Bool
  | .ok a s => test a s
  | .error _ _ => false

theorem eq_ok_of_returned {test : α → σ → Bool} {r : EStateM.Result ε σ α}
    (h : returned test r = true) : ∃ a s, r = .ok a s ∧ test a s = true := by
  cases r with
  | ok a s => exact ⟨a, s, rfl, h⟩
  | error e s => cases h

/-- The computation has failed in a state that passes a test. -/
def failed (test : σ → Bool) : EStateM.Result ε σ α → Bool
  | .ok _ _ => false
  | .error _ s => test s

theorem eq_error_of_failed {test : σ → Bool} {r : EStateM.Result ε σ α}
    (h : failed test r = true) : ∃ e s, r = .error e s ∧ test s = true := by
  cases r with
  | ok a s => cases h
  | error e s => exact ⟨e, s, rfl, h⟩

/-- From a state with `P` the computation returns with `Q` or fails with `E`. -/
def Ensures (P : σ → Prop) (act : EStateM ε σ α) (Q : α → σ → Prop) (E : ε → σ → Prop) : Prop :=
  ∀ s, P s → match act s with
    | .ok a s' => Q a s'
    | .error e s' => E e s'

namespace Ensures

variable {P P' : σ → Prop} {Q Q' : α → σ → Prop} {E E' : ε → σ → Prop} {act : EStateM ε σ α}

theorem of_ok (h : Ensures P act Q E) {s s' : σ} {a : α} (hs : P s) (hr : act s = .ok a s') :
    Q a s' := by
  have := h s hs
  rwa [hr] at this

theorem of_error (h : Ensures P act Q E) {s s' : σ} {e : ε} (hs : P s)
    (hr : act s = .error e s') : E e s' := by
  have := h s hs
  rwa [hr] at this

theorem intro (hok : ∀ s a s', P s → act s = .ok a s' → Q a s')
    (herror : ∀ s e s', P s → act s = .error e s' → E e s') : Ensures P act Q E := by
  intro s hs
  cases h : act s with
  | ok a s' => exact hok s a s' hs h
  | error e s' => exact herror s e s' hs h

theorem mono (h : Ensures P act Q E) (hP : ∀ s, P' s → P s) (hQ : ∀ a s, Q a s → Q' a s)
    (hE : ∀ e s, E e s → E' e s) : Ensures P' act Q' E' :=
  .intro (fun _ _ _ hs hr => hQ _ _ (h.of_ok (hP _ hs) hr))
    (fun _ _ _ hs hr => hE _ _ (h.of_error (hP _ hs) hr))

theorem mono_ok (h : Ensures P act Q E) (hQ : ∀ a s, Q a s → Q' a s) : Ensures P act Q' E :=
  h.mono (fun _ hs => hs) hQ fun _ _ he => he

theorem mono_error (h : Ensures P act Q E) (hE : ∀ e s, E e s → E' e s) : Ensures P act Q E' :=
  h.mono (fun _ hs => hs) (fun _ _ hq => hq) hE

theorem and (h : Ensures P act Q E) (h' : Ensures P' act Q' E') :
    Ensures (fun s => P s ∧ P' s) act (fun a s => Q a s ∧ Q' a s) (fun e s => E e s ∧ E' e s) :=
  .intro (fun _ _ _ hs hr => ⟨h.of_ok hs.1 hr, h'.of_ok hs.2 hr⟩)
    (fun _ _ _ hs hr => ⟨h.of_error hs.1 hr, h'.of_error hs.2 hr⟩)

theorem pure {a : α} (h : ∀ s, P s → Q a s) : Ensures P (pure a) Q E := h

theorem throw {e : ε} (h : ∀ s, P s → E e s) : Ensures P (throw e) Q E := h

theorem bind {R : β → σ → Prop} {first : EStateM ε σ β} {next : β → EStateM ε σ α}
    (hfirst : Ensures P first R E) (hnext : ∀ b, Ensures (R b) (next b) Q E) :
    Ensures P (first >>= next) Q E := by
  intro s hs
  show match EStateM.bind first next s with | .ok a s' => Q a s' | .error e s' => E e s'
  cases h : first s with
  | ok b s' =>
    rw [EStateM.bind, h]
    exact hnext b s' (hfirst.of_ok hs h)
  | error e s' =>
    rw [EStateM.bind, h]
    exact hfirst.of_error hs h

theorem throw_bind {e : ε} {next : β → EStateM ε σ α} (h : ∀ s, P s → E e s) :
    Ensures P (MonadExcept.throw e >>= next) Q E :=
  bind (R := fun _ _ => False) (.throw h) fun _ _ h => h.elim

theorem tryCatch {R : ε → σ → Prop} {handler : ε → EStateM ε σ α} (h : Ensures P act Q R)
    (hhandler : ∀ e, Ensures (R e) (handler e) Q E) : Ensures P (tryCatch act handler) Q E := by
  intro s hs
  show match EStateM.tryCatch act handler s with | .ok a s' => Q a s' | .error e s' => E e s'
  delta EStateM.tryCatch
  cases hr : act s with
  | ok b s' => exact h.of_ok hs hr
  | error e s' => exact hhandler e s' (h.of_error hs hr)

theorem modify {change : σ → σ} {Q : PUnit → σ → Prop} (h : ∀ s, P s → Q ⟨⟩ (change s)) :
    Ensures P (modify change : EStateM ε σ PUnit) Q E := h

theorem ofExcept {x : Except ε α} (hok : ∀ a s, x = .ok a → P s → Q a s)
    (herror : ∀ e s, x = .error e → P s → E e s) :
    Ensures P (MonadExcept.ofExcept x : EStateM ε σ α) Q E := by
  cases x with
  | ok a => exact fun s hs => hok a s rfl hs
  | error e => exact fun s hs => herror e s rfl hs

/-- A fact about the parameters only may be taken out of the precondition. -/
theorem of_and {φ : Prop} (h : φ → Ensures P act Q E) : Ensures (fun s => φ ∧ P s) act Q E :=
  fun s hs => h hs.1 s hs.2

theorem of_exists {ι : Type} {P : ι → σ → Prop} (h : ∀ i, Ensures (P i) act Q E) :
    Ensures (fun s => ∃ i, P i s) act Q E :=
  fun s ⟨i, hi⟩ => h i s hi

section Loops

variable {f : β → EStateM ε σ α} {Q : List α → σ → Prop}

theorem mapM_nil (h : ∀ s, P s → Q [] s) : Ensures P (([] : List β).mapM f) Q E := h

theorem mapM_cons {R : α → σ → Prop} {x : β} {xs : List β} (hx : Ensures P (f x) R E)
    (hxs : ∀ a, Ensures (R a) (xs.mapM f) (fun as => Q (a :: as)) E) :
    Ensures P ((x :: xs).mapM f) Q E := by
  rw [List.mapM_cons]
  exact hx.bind fun a => (hxs a).bind fun as => .pure fun _ h => h

/-- A step that fails exactly on the items that do not meet `φ` makes a loop that fails exactly if
some item does not. -/
theorem mapM_filterMap {φ : β → Prop} {g : β → Option α} {xs : List β}
    (h : ∀ x ∈ xs, Ensures P (f x) (fun a s => (φ x ∧ g x = some a) ∧ P s)
      (fun _ s => ¬ φ x ∧ P s)) :
    Ensures P (xs.mapM f) (fun as s => ((∀ x ∈ xs, φ x) ∧ as = xs.filterMap g) ∧ P s)
      (fun _ s => (¬ ∀ x ∈ xs, φ x) ∧ P s) := by
  induction xs with
  | nil => exact .mapM_nil fun s hs => ⟨⟨List.forall_mem_nil _, rfl⟩, hs⟩
  | cons x xs ih =>
    obtain ⟨hx, hxs⟩ := List.forall_mem_cons.mp h
    refine .mapM_cons (hx.mono_error fun _ s hs => ?_) fun a => .of_and fun ha => ?_
    · exact ⟨fun hall => hs.1 (hall x List.mem_cons_self), hs.2⟩
    refine (ih hxs).mono (fun _ hs => hs) ?_ ?_
    · rintro as s ⟨⟨hall, rfl⟩, hs⟩
      refine ⟨⟨List.forall_mem_cons.mpr ⟨ha.1, hall⟩, ?_⟩, hs⟩
      rw [List.filterMap_cons_some ha.2]
    · rintro _ s ⟨hnot, hs⟩
      exact ⟨fun hall => hnot (List.forall_mem_cons.mp hall).2, hs⟩

end Loops

end Ensures

/-- The state in which a computation ends, however it ends. -/
def after (act : EStateM ε σ α) (s : σ) : σ :=
  match act s with
  | .ok _ s' => s'
  | .error _ s' => s'

theorem Ensures.after {P R : σ → Prop} {act : EStateM ε σ α}
    (h : Ensures P act (fun _ => R) fun _ => R) {s : σ} (hs : P s) : R (after act s) := by
  unfold ContentSpaces.after
  cases hr : act s with
  | ok a s' => exact h.of_ok hs hr
  | error e s' => exact h.of_error hs hr

/-- However it ends, the computation keeps a condition on the state, and a result is as described. -/
def Keeps (I : σ → Prop) (act : EStateM ε σ α) (Q : α → Prop) : Prop :=
  Ensures I act (fun a s => Q a ∧ I s) fun _ => I

namespace Keeps

variable {I : σ → Prop} {act : EStateM ε σ α} {Q Q' : α → Prop}

theorem after (h : Keeps I act Q) {s : σ} (hs : I s) : I (after act s) :=
  Ensures.after (h.mono_ok fun _ _ hs => hs.2) hs

theorem mono (h : Keeps I act Q) (hQ : ∀ a, Q a → Q' a) : Keeps I act Q' :=
  Ensures.mono_ok h fun a _ ha => ⟨hQ a ha.1, ha.2⟩

theorem pure {a : α} (h : Q a) : Keeps I (pure a : EStateM ε σ α) Q := fun _ hs => ⟨h, hs⟩

theorem throw {e : ε} : Keeps I (throw e : EStateM ε σ α) Q := fun _ hs => hs

theorem bind {R : β → Prop} {first : EStateM ε σ β} {next : β → EStateM ε σ α}
    (hfirst : Keeps I first R) (hnext : ∀ b, R b → Keeps I (next b) Q) :
    Keeps I (first >>= next) Q :=
  Ensures.bind hfirst fun b => .of_and fun hb => hnext b hb

theorem throw_bind {e : ε} {next : β → EStateM ε σ α} :
    Keeps I (MonadExcept.throw e >>= next) Q := Ensures.throw_bind fun _ hs => hs

theorem tryCatch {handler : ε → EStateM ε σ α} (h : Keeps I act Q)
    (hhandler : ∀ e, Keeps I (handler e) Q) : Keeps I (tryCatch act handler) Q :=
  Ensures.tryCatch h hhandler

theorem ofExcept {x : Except ε α} (h : ∀ a, x = .ok a → Q a) :
    Keeps I (MonadExcept.ofExcept x : EStateM ε σ α) Q :=
  Ensures.ofExcept (fun a _ ha hs => ⟨h a ha, hs⟩) fun _ _ _ hs => hs

section Loops

variable {f : β → EStateM ε σ α} {xs : List β}

theorem mapM (h : ∀ x ∈ xs, Keeps I (f x) Q) : Keeps I (xs.mapM f) fun as => ∀ a ∈ as, Q a := by
  induction xs with
  | nil => exact .pure (List.forall_mem_nil _)
  | cons x xs ih =>
    obtain ⟨hx, hxs⟩ := List.forall_mem_cons.mp h
    rw [List.mapM_cons]
    exact hx.bind fun a ha => (ih hxs).bind fun as has =>
      .pure (List.forall_mem_cons.mpr ⟨ha, has⟩)

theorem forM {f : β → EStateM ε σ PUnit} (h : ∀ x ∈ xs, Keeps I (f x) fun _ => True) :
    Keeps I (xs.forM f) fun _ => True := by
  induction xs with
  | nil => exact .pure trivial
  | cons x xs ih =>
    obtain ⟨hx, hxs⟩ := List.forall_mem_cons.mp h
    exact hx.bind fun _ _ => ih hxs

theorem filterM {f : β → EStateM ε σ Bool} (h : ∀ x ∈ xs, Keeps I (f x) fun _ => True) :
    Keeps I (xs.filterM f) fun _ => True := by
  have hamong (ys : List β) (hys : ∀ y ∈ ys, y ∈ xs) (done : List β) :
      Keeps I (List.filterAuxM f ys done) fun _ => True := by
    induction ys generalizing done with
    | nil => exact .pure trivial
    | cons y ys ih =>
      obtain ⟨hy, hrest⟩ := List.forall_mem_cons.mp hys
      exact (h y hy).bind fun _ _ => ih hrest _
  exact (hamong xs (fun _ hy => hy) []).bind fun _ _ => .pure trivial

/-- A test that answers by a predicate filters by it. -/
theorem filterM_eq {f : β → EStateM ε σ Bool} {p : β → Bool}
    (h : ∀ x, Keeps I (f x) fun b => b = p x) : Keeps I (xs.filterM f) fun ys => ys = xs.filter p := by
  have hamong (ys done : List β) : Keeps I (List.filterAuxM f ys done) fun zs =>
      zs = (ys.filter p).reverse ++ done := by
    induction ys generalizing done with
    | nil => exact .pure rfl
    | cons y ys ih =>
      refine (h y).bind ?_
      rintro _ rfl
      refine (ih _).mono fun zs hzs => ?_
      cases hy : p y with
      | true => simpa [hy] using hzs
      | false => simpa [hy] using hzs
  refine (hamong xs []).bind ?_
  rintro _ rfl
  exact .pure (by simp)

end Loops

end Keeps

end ContentSpaces
