import ContentSpaces.Proofs.Catalog
import ContentSpaces.Proofs.Computation

/-!
# Calls of the content store

What each call does to the content, whichever calls are refused: a call that returns has done its
work, and one that fails has changed nothing or made some of its writes.
-/

namespace ContentSpaces.Store

variable {α β : Type}

/-- The computation leaves the content alone, and gives what `f` says of it. -/
def Reads (act : StoreM α) (f : Content → α) : Prop :=
  ∀ c, Ensures (·.content = c) act (fun a s => a = f c ∧ s.content = c) (fun _ s => s.content = c)

/-- A condition on the content may be met by fixing the content. -/
theorem ensures_of_content {P : Content → Prop} {act : StoreM α} {Q : α → Store → Prop}
    {E : ContentError → Store → Prop} (h : ∀ c, P c → Ensures (·.content = c) act Q E) :
    Ensures (fun s => P s.content) act Q E := fun s hs => h _ hs s rfl

theorem ensures_call (request : Call) (answer : Content → α × Content) (c : Content) :
    Ensures (·.content = c) (call request answer) (fun a s => (a, s.content) = answer c)
      (fun _ s => s.content = c) := by
  intro s hs
  subst hs
  cases h : s.outage s.calls request with
  | true => simp [call, h]
  | false => simp [call, h]

namespace Reads

theorem pure (a : α) : Reads (pure a) fun _ => a := fun _ _ hs => ⟨rfl, hs⟩

theorem bind {first : StoreM β} {next : β → StoreM α} {f : Content → β} {g : β → Content → α}
    (hfirst : Reads first f) (hnext : ∀ b, Reads (next b) (g b)) :
    Reads (first >>= next) fun c => g (f c) c := fun c =>
  (hfirst c).bind fun b => .of_and fun hb => by
    subst hb
    exact hnext (f c) c

theorem mapM {act : β → StoreM α} {f : β → Content → α} (h : ∀ b, Reads (act b) (f b))
    (xs : List β) : Reads (xs.mapM act) fun c => xs.map (f · c) := by
  induction xs with
  | nil => exact .pure []
  | cons x xs ih =>
    rw [List.mapM_cons]
    exact (h x).bind fun _ => ih.bind fun _ => .pure _

theorem congr {act : StoreM α} {f g : Content → α} (h : Reads act f) (hfg : ∀ c, f c = g c) :
    Reads act g := by
  obtain rfl : f = g := funext hfg
  exact h

end Reads

/-- The store answers every call. -/
def Up (s : Store) : Prop := ∀ n request, s.outage n request = false

def Answers (act : StoreM α) : Prop :=
  Ensures Up act (fun _ s => s.Up) (fun _ _ => False)

namespace Answers

theorem of_content {act : StoreM α} (h : Answers act) (c : Content) :
    Ensures (fun s => s.content = c ∧ s.Up) act (fun _ s => s.Up) (fun _ _ => False) :=
  Ensures.mono h (fun _ h => h.2) (fun _ _ h => h) fun _ _ h => h

theorem call (request : Call) (answer : Content → α × Content) : Answers (call request answer) := by
  intro s hs
  simp only [Store.call, hs s.calls request]
  exact hs

theorem pure (a : α) : Answers (pure a) := fun _ hs => hs

theorem bind {first : StoreM β} {next : β → StoreM α} (hfirst : Answers first)
    (hnext : ∀ b, Answers (next b)) : Answers (first >>= next) :=
  Ensures.bind hfirst hnext

theorem mapM {act : β → StoreM α} (h : ∀ b, Answers (act b)) (xs : List β) :
    Answers (xs.mapM act) := by
  induction xs with
  | nil => exact .pure []
  | cons x xs ih =>
    rw [List.mapM_cons]
    exact (h x).bind fun _ => ih.bind fun _ => .pure _

end Answers

theorem reads_get? (a : Address) : Reads (get? a) (·.get? a) := fun c =>
  (ensures_call _ _ c).mono_ok fun _ _ h => Prod.mk.inj h

theorem reads_search (kind : Kind) (space : Space) : Reads (search kind space) (·.collection kind space) :=
  fun c => (ensures_call _ _ c).mono_ok fun _ _ h => Prod.mk.inj h

theorem reads_exists? (a : Address) : Reads (exists? a) fun c => (c.get? a).isSome :=
  (reads_get? a).bind fun r => .pure r.isSome

theorem reads_locateAmong (space : Space) (id : String) (kinds : List Kind) :
    Reads (locateAmong space id kinds)
      fun c => kinds.find? fun kind => (c.get? ⟨kind, space, id⟩).isSome := by
  induction kinds with
  | nil => exact .pure none
  | cons kind kinds ih =>
    refine Reads.congr (Reads.bind (g := fun there c => if there then some kind
      else kinds.find? fun kind => (c.get? ⟨kind, space, id⟩).isSome)
      (reads_exists? ⟨kind, space, id⟩) fun there => ?_) fun c => ?_
    · cases there with
      | true => exact .pure (some kind)
      | false => exact ih
    · rw [List.find?_cons]
      cases (c.get? ⟨kind, space, id⟩).isSome <;> rfl

theorem answers_locate (space : Space) (id : String) : Answers (locate space id) := by
  unfold locate
  induction Kind.all with
  | nil => exact .pure none
  | cons kind kinds ih =>
    refine Answers.bind (Answers.bind (.call _ _) fun _ => .pure _) fun there => ?_
    cases there with
    | true => exact .pure (some kind)
    | false => exact ih

theorem reads_locate (space : Space) (id : String) :
    Reads (locate space id) fun c => (c.catalog space).locate? id :=
  (reads_locateAmong space id Kind.all).congr fun c => (c.locate?_catalog space id).symm

theorem answers_policy? (space : Space) : Answers (policy? space) :=
  Answers.bind (.call _ _) fun _ => .pure _

theorem reads_policy? (space : Space) :
    Reads (policy? space) fun c => (c.collection .policy space).head? :=
  (reads_search .policy space).bind fun rs => .pure rs.head?

theorem ensures_create (r : Resource) (c : Content) :
    Ensures (·.content = c) (create r) (fun _ s => s.content = c.file r)
      (fun _ s => s.content = c) :=
  (ensures_call _ _ c).mono_ok fun _ _ h => (Prod.mk.inj h).2

/-- On a store that answers, a write makes true what holds of the content with the resource. -/
theorem ensures_create_of_up {P : Content → Prop} (r : Resource) :
    Ensures (fun s => P (s.content.file r) ∧ s.Up) (create r) (fun _ s => P s.content ∧ s.Up)
      (fun _ _ => False) := by
  rintro s ⟨hp, hs⟩
  simp only [create, call, hs s.calls _]
  exact ⟨hp, hs⟩

theorem ensures_delete (a : Address) (c : Content) :
    Ensures (·.content = c) (delete a) (fun _ s => s.content = c.erase a)
      (fun _ s => s.content = c) :=
  (ensures_call _ _ c).mono_ok fun _ _ h => (Prod.mk.inj h).2

theorem ensures_clear (kind : Kind) (space : Space) (c : Content) :
    Ensures (·.content = c) (clear kind space)
      (fun _ s => s.content = c.withoutCollection kind space) (fun _ s => s.content = c) :=
  (ensures_call _ _ c).mono_ok fun _ _ h => (Prod.mk.inj h).2

section Kept

variable {P : Content → Prop} {act : StoreM α}

/-! A condition on the content is kept by a call, however it ends, if the write that the call makes
keeps it. -/

theorem Reads.keeps {f : Content → α} (h : Reads act f) {Q : α → Prop}
    (hf : ∀ c, P c → Q (f c)) : Keeps (fun s => P s.content) act Q :=
  ensures_of_content fun c hc => (h c).mono (fun _ hs => hs)
    (fun _ _ hs => ⟨hs.1 ▸ hf c hc, (congrArg P hs.2).mpr hc⟩) fun _ _ hs => (congrArg P hs).mpr hc

theorem keeps_of_ensures {f : Content → Content}
    (h : ∀ c, Ensures (·.content = c) act (fun _ s => s.content = f c) fun _ s => s.content = c)
    (hf : ∀ c, P c → P (f c)) : Keeps (fun s => P s.content) act fun _ => True :=
  ensures_of_content fun c hc => (h c).mono (fun _ hs => hs)
    (fun _ _ hs => ⟨trivial, (congrArg P hs).mpr (hf c hc)⟩) fun _ _ hs => (congrArg P hs).mpr hc

theorem keeps_create {r : Resource} (h : ∀ c, P c → P (c.file r)) :
    Keeps (fun s => P s.content) (create r) fun _ => True := keeps_of_ensures (ensures_create r) h

theorem keeps_delete {a : Address} (h : ∀ c, P c → P (c.erase a)) :
    Keeps (fun s => P s.content) (delete a) fun _ => True := keeps_of_ensures (ensures_delete a) h

theorem keeps_clear {kind : Kind} {space : Space}
    (h : ∀ c, P c → P (c.withoutCollection kind space)) :
    Keeps (fun s => P s.content) (clear kind space) fun _ => True :=
  keeps_of_ensures (ensures_clear kind space) h

theorem keeps_createAll {I : Store → Prop} {rs : List Resource}
    (h : ∀ r ∈ rs, Keeps I (create r) fun _ => True) : Keeps I (createAll rs) fun _ => True := by
  induction rs with
  | nil => exact .pure trivial
  | cons r rs ih =>
    obtain ⟨hr, hrs⟩ := List.forall_mem_cons.mp h
    exact hr.bind fun _ _ => ih hrs

theorem keeps_clearSpace {space : Space}
    (h : ∀ kind c, P c → P (c.withoutCollection kind space)) :
    Keeps (fun s => P s.content) (clearSpace space) fun _ => True :=
  (Keeps.mapM (Q := fun _ => True) fun kind _ => keeps_clear (h kind)).bind fun _ _ => .pure trivial

end Kept

theorem ensures_require (a : Address) (c : Content) :
    Ensures (·.content = c) (require a) (fun r s => c.get? a = some r ∧ s.content = c)
      (fun _ s => s.content = c) := by
  refine (reads_get? a c).bind fun found => .of_and fun hfound => ?_
  cases found with
  | none => exact .throw fun _ h => h
  | some r => exact .pure fun _ h => ⟨hfound.symm, h⟩

theorem ensures_update (a : Address) (ops : List Patch.Operation) (c : Content) :
    Ensures (·.content = c) (update a ops)
      (fun r' s => (∃ r, c.get? a = some r ∧ r.applyPatch ops = .ok r') ∧ s.content = c.file r')
      (fun _ s => s.content = c) := by
  refine (ensures_require a c).bind fun r => .of_and fun hr => ?_
  refine Ensures.bind (.ofExcept (Q := fun r' s => r.applyPatch ops = .ok r' ∧ s.content = c)
    (fun _ _ hr' h => ⟨hr', h⟩) fun _ _ _ h => h) fun r' => .of_and fun hr' => ?_
  exact (ensures_create r' c).bind fun _ => .pure fun _ h => ⟨⟨r, hr, hr'⟩, h⟩

theorem keeps_update {P : Content → Prop} {a : Address} {ops : List Patch.Operation}
    (h : ∀ c r r', P c → c.get? a = some r → r.applyPatch ops = .ok r' → P (c.file r')) :
    Keeps (fun s => P s.content) (update a ops) fun _ => True :=
  ensures_of_content fun c hc => (ensures_update a ops c).mono (fun _ hs => hs)
    (fun r' _ hs => by
      obtain ⟨⟨r, hstored, hpatch⟩, hs⟩ := hs
      exact ⟨trivial, (congrArg P hs).mpr (h c r r' hc hstored hpatch)⟩)
    fun _ _ hs => (congrArg P hs).mpr hc

/-- On a store that answers, only a missing resource or a bad patch makes an update fail. -/
theorem ensures_update_of_up (a : Address) (ops : List Patch.Operation) (c : Content) :
    Ensures (fun s => s.content = c ∧ s.Up) (update a ops) (fun _ s => s.Up)
      (fun _ _ => ∀ r r', c.get? a = some r → r.applyPatch ops ≠ .ok r') := by
  refine Ensures.bind (R := fun found s => c.get? a = some found ∧ s.Up) ?_ fun r =>
    Ensures.of_and (P := Up) fun hr => ?_
  · refine Ensures.bind (((reads_get? a c).and (Answers.call _ _)).mono_error
      fun _ _ h => h.2.elim) fun found => ?_
    cases found with
    | none =>
      refine .throw fun s h r r' hr => ?_
      cases h.1.1.trans hr
    | some r => exact .pure fun s h => ⟨h.1.1.symm, h.2⟩
  · refine Ensures.bind (.ofExcept (Q := fun _ s => s.Up) (fun _ _ _ h => h) ?_) fun r' =>
      Ensures.bind ((Answers.call _ _).mono_error fun _ _ => False.elim)
        fun _ => .pure fun _ h => h
    intro e s he _ r₁ r' hr₁
    obtain rfl := Option.some.inj (hr.symm.trans hr₁)
    rw [he]
    nofun

section Spaces

variable {space : Space}

theorem ensures_createAll {rs : List Resource} (hrs : ∀ r ∈ rs, r.Ingested space) (c : Content) :
    Ensures (·.content = c) (createAll rs)
      (fun _ s => s.content = c.fileAll rs ∧ Content.Edits space c s.content)
      (fun _ s => Content.Edits space c s.content) := by
  induction rs generalizing c with
  | nil => exact .pure fun _ h => ⟨h, h ▸ .refl⟩
  | cons r rs ih =>
    obtain ⟨kind, document, hr⟩ := hrs r List.mem_cons_self
    have hfile : Content.Edits space c (c.file r) := .single (.ingest hr)
    refine Ensures.bind ((ensures_create r c).mono_error fun _ _ h => h ▸ .refl) fun _ => ?_
    exact (ih (fun r h => hrs r (List.mem_cons_of_mem _ h)) (c.file r)).mono (fun _ h => h)
      (fun _ _ h => ⟨h.1, hfile.trans h.2⟩) fun _ _ h => hfile.trans h

theorem ensures_clearAmong (kinds : List Kind) (c : Content) :
    Ensures (·.content = c) (kinds.mapM fun kind => clear kind space)
      (fun _ s => Content.Edits space c s.content ∧ ∀ a r, s.content.get? a = some r →
        c.get? a = some r ∧ (a.space = space → a.kind ∉ kinds))
      (fun _ s => Content.Edits space c s.content) := by
  induction kinds generalizing c with
  | nil => exact .mapM_nil fun _ h => ⟨h ▸ .refl, fun _ _ hr => ⟨h ▸ hr, fun _ => List.not_mem_nil⟩⟩
  | cons kind kinds ih =>
    have hclear : Content.Edits space c (c.withoutCollection kind space) := .single (.clear kind)
    refine .mapM_cons ((ensures_clear kind space c).mono_error fun _ _ h => h ▸ .refl) fun _ => ?_
    refine (ih (c.withoutCollection kind space)).mono (fun _ h => h) (fun _ s h => ?_)
      fun _ _ h => hclear.trans h
    obtain ⟨hedits, hleft⟩ := h
    refine ⟨hclear.trans hedits, fun a r hr => ?_⟩
    obtain ⟨hstored, hkinds⟩ := hleft a r hr
    refine ⟨Content.get?_of_get?_withoutCollection hstored, fun hspace => ?_⟩
    have hkind : a.kind ≠ kind := by
      intro hkind
      rw [Content.get?_withoutCollection, if_pos ⟨hkind, hspace⟩] at hstored
      cases hstored
    exact List.not_mem_cons_of_ne_of_not_mem hkind (hkinds hspace)

theorem ensures_clearSpace (c : Content) :
    Ensures (·.content = c) (clearSpace space)
      (fun _ s => Content.Edits space c s.content ∧ s.content.catalog space = .empty)
      (fun _ s => Content.Edits space c s.content) := by
  refine (ensures_clearAmong Kind.all c).bind fun _ => .pure fun s h => ⟨h.1, ?_⟩
  apply Table.ext_get?
  intro subject
  rw [Content.get?_catalog, Table.get?_empty, Option.map_eq_none_iff]
  cases hr : s.content.get? ⟨subject.kind, space, subject.id⟩ with
  | none => rfl
  | some r => exact absurd subject.kind.mem_all ((h.2 _ r hr).2 rfl)

end Spaces

end ContentSpaces.Store
