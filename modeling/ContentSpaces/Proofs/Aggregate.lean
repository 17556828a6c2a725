import ContentSpaces.Proofs.Store

/-!
# Aggregates of stored content

An aggregate depends on documents and digests only, never on another aggregate. Recalculating
therefore gives every container the aggregate that recalculating once more would give it.
-/

namespace ContentSpaces

def Kind.isContainer (kind : Kind) : Bool := kind == .integration || kind == .policy

def Resource.bare (r : Resource) : Resource := { r with aggregate := none }

def Resource.body (r : Resource) : Json × String := (r.document, r.hash)

theorem Resource.bare_eq_iff {r r' : Resource} : r'.bare = r.bare ↔
    r'.kind = r.kind ∧ r'.document = r.document ∧ r'.space = r.space ∧ r'.hash = r.hash := by
  cases r
  cases r'
  simp [bare]

theorem Resource.map_map_bare {α : Type} {f : Resource → α} (hf : ∀ r : Resource, f r.bare = f r)
    (x : Option Resource) : (x.map bare).map f = x.map f := by
  rw [Option.map_map]
  exact Option.map_congr fun r _ => hf r

/-- Resources that agree in one respect agree in what depends on it. -/
theorem Resource.map_eq_map {α β : Type} {f : Resource → α} {g g' : Resource → β}
    {x x' : Option Resource} (h : x'.map f = x.map f)
    (hg : ∀ r r', x = some r → x' = some r' → f r' = f r → g' r' = g r) :
    x'.map g' = x.map g := by
  cases x with
  | none => rw [Option.map_eq_none_iff.mp h]; rfl
  | some r =>
    obtain ⟨r', rfl, hr'⟩ := Option.map_eq_some_iff.mp h
    exact congrArg some (hg r r' rfl rfl hr')

theorem Resource.withAggregate_eq_of_bare {r r' : Resource} (h : r'.bare = r.bare)
    {digest : String} : r'.withAggregate digest = r.withAggregate digest := by
  obtain ⟨hkind, hdocument, hspace, hhash⟩ := bare_eq_iff.mp h
  unfold withAggregate
  rw [hkind, hdocument, hspace, hhash]

namespace Content

variable {c c' c'' : Content}

def coverChild (c : Content) (parent : Resource) (list : RefList) (id : String) : Coverage :=
  match c.get? ⟨list.childKind, parent.space, id⟩ with
  | some child => ⟨[child.hash], 0⟩
  | none => ⟨[], 1⟩

def coverList (c : Content) (parent : Resource) (list : RefList) : Coverage :=
  .join ((parent.references list).map (c.coverChild parent list))

def coverIntegration (c : Content) (integration : Resource) : Coverage :=
  .append ⟨[integration.hash], 0⟩ (.join (RefList.hashOrder.map (c.coverList integration)))

def coverMember (c : Content) (policy : Resource) (id : String) : Coverage :=
  match c.get? ⟨.integration, policy.space, id⟩ with
  | some integration => c.coverIntegration integration
  | none => ⟨[], 1⟩

def coverPolicy (c : Content) (policy : Resource) : Coverage :=
  .append ⟨[policy.hash], 0⟩ (.join ((policy.references .integrations).map (c.coverMember policy)))

def cover (c : Content) (container : Resource) : Coverage :=
  if container.kind = .policy then c.coverPolicy container else c.coverIntegration container

def aggregate (c : Content) (container : Resource) : String :=
  Digest.aggregate (c.cover container).digests

/-- The contents differ in aggregates only. -/
def SameBare (c c' : Content) : Prop :=
  ∀ a, (c'.get? a).map Resource.bare = (c.get? a).map Resource.bare

theorem SameBare.refl (c : Content) : SameBare c c := fun _ => rfl

/-- What is read off a resource without its aggregate is the same. -/
theorem SameBare.map_get? {α : Type} {f : Resource → α} (h : SameBare c c')
    (hf : ∀ r : Resource, f r.bare = f r) (a : Address) :
    (c'.get? a).map f = (c.get? a).map f := by
  rw [← Resource.map_map_bare hf, h, Resource.map_map_bare hf]

theorem SameBare.exists_get? (h : SameBare c c') {a : Address} {r : Resource}
    (hr : c.get? a = some r) : ∃ r', c'.get? a = some r' ∧ r'.bare = r.bare := by
  have ha := h a
  rw [hr] at ha
  exact Option.map_eq_some_iff.mp ha

section Congruence

variable {r r' : Resource}

theorem coverChild_eq (c : Content) (parent : Resource) (list : RefList) (id : String) :
    c.coverChild parent list id =
      ((c.get? ⟨list.childKind, parent.space, id⟩).map Resource.hash).elim ⟨[], 1⟩
        fun hash => ⟨[hash], 0⟩ := by
  unfold coverChild
  cases c.get? ⟨list.childKind, parent.space, id⟩ <;> rfl

theorem coverMember_eq (c : Content) (policy : Resource) (id : String) :
    c.coverMember policy id =
      ((c.get? ⟨.integration, policy.space, id⟩).map c.coverIntegration).getD ⟨[], 1⟩ := by
  unfold coverMember
  cases c.get? ⟨.integration, policy.space, id⟩ <;> rfl

theorem references_eq_of_document (h : r'.document = r.document) :
    r'.references = r.references := by
  funext list
  unfold Resource.references
  rw [h]

/-- An integration covers what another does if both refer to the same, with the same digests. -/
theorem coverIntegration_congr (hhash : r'.hash = r.hash) (hdocument : r'.document = r.document)
    (hchildren : ∀ list ∈ RefList.hashOrder, ∀ id,
      (c'.get? ⟨list.childKind, r'.space, id⟩).map Resource.hash =
        (c.get? ⟨list.childKind, r.space, id⟩).map Resource.hash) :
    c'.coverIntegration r' = c.coverIntegration r := by
  have hlists :
      RefList.hashOrder.map (c'.coverList r') = RefList.hashOrder.map (c.coverList r) := by
    refine List.map_congr_left fun list hlist => ?_
    have hchild : c'.coverChild r' list = c.coverChild r list := by
      funext id
      rw [coverChild_eq, coverChild_eq, hchildren list hlist id]
    rw [coverList, coverList, references_eq_of_document hdocument, hchild]
  rw [coverIntegration, coverIntegration, hhash, hlists]

theorem coverPolicy_congr (hhash : r'.hash = r.hash) (hdocument : r'.document = r.document)
    (hmembers : ∀ id, (c'.get? ⟨.integration, r'.space, id⟩).map c'.coverIntegration =
      (c.get? ⟨.integration, r.space, id⟩).map c.coverIntegration) :
    c'.coverPolicy r' = c.coverPolicy r := by
  have hmember : c'.coverMember r' = c.coverMember r := by
    funext id
    rw [coverMember_eq, coverMember_eq, hmembers id]
  rw [coverPolicy, coverPolicy, hhash, references_eq_of_document hdocument, hmember]

end Congruence

theorem SameBare.coverIntegration (h : SameBare c c') {r r' : Resource} (hr : r'.bare = r.bare) :
    c'.coverIntegration r' = c.coverIntegration r := by
  obtain ⟨-, hdocument, hspace, hhash⟩ := Resource.bare_eq_iff.mp hr
  refine coverIntegration_congr hhash hdocument fun list _ id => ?_
  rw [hspace]
  exact h.map_get? (fun _ => rfl) _

theorem SameBare.coverPolicy (h : SameBare c c') {r r' : Resource} (hr : r'.bare = r.bare) :
    c'.coverPolicy r' = c.coverPolicy r := by
  obtain ⟨-, hdocument, hspace, hhash⟩ := Resource.bare_eq_iff.mp hr
  refine coverPolicy_congr hhash hdocument fun id => ?_
  rw [hspace]
  exact Resource.map_eq_map (h _) fun _ _ _ _ hi => h.coverIntegration hi

theorem SameBare.aggregate (h : SameBare c c') {r r' : Resource} (hr : r'.bare = r.bare) :
    c'.aggregate r' = c.aggregate r := by
  unfold Content.aggregate cover
  rw [(Resource.bare_eq_iff.mp hr).1, h.coverPolicy hr, h.coverIntegration hr]

section SameBodies

variable {s t : Space} {r r' : Resource}

/-- The kinds that an aggregate covers besides the container's own. -/
def covered : List Kind := [.integration, .decoder, .kvdb, .rule]

/-- Aggregates find the same in a space as in a space of another content. -/
def SameBodies (c : Content) (s : Space) (c' : Content) (t : Space) : Prop :=
  ∀ kind ∈ covered, ∀ id, (c'.get? ⟨kind, t, id⟩).map Resource.body =
    (c.get? ⟨kind, s, id⟩).map Resource.body

theorem SameBodies.coverIntegration (h : SameBodies c s c' t) (hr : r.space = s)
    (hr' : r'.space = t) (hbody : r'.body = r.body) :
    c'.coverIntegration r' = c.coverIntegration r := by
  obtain ⟨hdocument, hhash⟩ := Prod.mk.inj hbody
  refine coverIntegration_congr hhash hdocument fun list hlist id => ?_
  have hkind : list.childKind ∈ covered := by
    revert hlist
    cases list <;> decide
  rw [hr, hr']
  exact Resource.map_eq_map (h _ hkind id) fun _ _ _ _ hchild => (Prod.mk.inj hchild).2

theorem SameBodies.coverPolicy (h : SameBodies c s c' t) (hc : c.Filed) (hc' : c'.Filed)
    (hr : r.space = s) (hr' : r'.space = t) (hbody : r'.body = r.body) :
    c'.coverPolicy r' = c.coverPolicy r := by
  obtain ⟨hdocument, hhash⟩ := Prod.mk.inj hbody
  refine coverPolicy_congr hhash hdocument fun id => ?_
  rw [hr, hr']
  refine Resource.map_eq_map (h .integration List.mem_cons_self id) fun i i' hi hi' hsame => ?_
  exact h.coverIntegration (congrArg Address.space (hc _ _ hi))
    (congrArg Address.space (hc' _ _ hi')) hsame

end SameBodies

/-- The containers at these addresses have got their aggregates, and nothing else has changed. -/
def Refreshed (p : Address → Bool) (c c' : Content) : Prop :=
  ∀ a, c'.get? a = (c.get? a).map fun r =>
    if p a then r.withAggregate (c.aggregate r) else r

variable {p q : Address → Bool}

theorem Refreshed.sameBare (h : Refreshed p c c') : SameBare c c' := by
  intro a
  rw [h a, Option.map_map]
  refine Option.map_congr fun r _ => ?_
  by_cases hp : p a <;> simp [hp, Resource.bare, Resource.withAggregate]

/-- An aggregate that has just been written is the one that the content gives now: computing it has
changed nothing that it depends on. -/
theorem Refreshed.aggregate_eq (h : Refreshed p c c') {a : Address} {r : Resource} (hp : p a)
    (hr : c'.get? a = some r) : r.aggregate = some (c'.aggregate r) := by
  rw [h a] at hr
  obtain ⟨stored, -, hwritten⟩ := Option.map_eq_some_iff.mp hr
  rw [if_pos hp] at hwritten
  subst hwritten
  have hagain : c'.aggregate (stored.withAggregate (c.aggregate stored)) = c.aggregate stored :=
    h.sameBare.aggregate rfl
  rw [hagain]
  rfl

theorem Refreshed.refl (c : Content) : Refreshed (fun _ => false) c c := by
  intro a
  simp

theorem Refreshed.congr (h : Refreshed p c c')
    (hpq : ∀ a r, c.get? a = some r → p a = q a) : Refreshed q c c' := by
  intro a
  rw [h a]
  exact Option.map_congr fun r hr => by rw [hpq a r hr]

theorem Refreshed.trans (h : Refreshed p c c') (h' : Refreshed q c' c'') :
    Refreshed (fun a => p a || q a) c c'' := by
  intro a
  rw [h' a, h a, Option.map_map]
  refine Option.map_congr fun r _ => ?_
  have hagain (r' : Resource) (hr' : r'.bare = r.bare) : c'.aggregate r' = c.aggregate r :=
    h.sameBare.aggregate hr'
  simp only [Function.comp]
  by_cases hp : p a
  · have hor : (p a || q a) = true := by rw [hp, Bool.true_or]
    rw [if_pos hp, hagain (r.withAggregate (c.aggregate r)) rfl, if_pos hor]
    split <;> rfl
  · rw [if_neg hp, hagain r rfl]
    simp only [hp, Bool.false_or]

theorem Refreshed.filed (h : Refreshed p c c') (hc : c.Filed) : c'.Filed := by
  intro a r' hr'
  rw [h a] at hr'
  obtain ⟨r, hr, rfl⟩ := Option.map_eq_some_iff.mp hr'
  split
  · exact hc a r hr
  · exact hc a r hr

theorem Refreshed.intact (h : Refreshed p c c') (hc : c.Intact) : c'.Intact := by
  intro a r' hr'
  rw [h a] at hr'
  obtain ⟨r, hr, rfl⟩ := Option.map_eq_some_iff.mp hr'
  split
  · exact (hc a r hr).withAggregate _
  · exact hc a r hr

/-- Writing the aggregate of a container, as it was read some refreshes ago. -/
theorem refreshed_file {r stored : Resource} (hstored : c.get? r.address = some stored)
    (hbare : stored.bare = r.bare) :
    Refreshed (fun a => a == r.address) c (c.file (r.withAggregate (c.aggregate r))) := by
  intro a
  rw [get?_file]
  have haddress : (r.withAggregate (c.aggregate r)).address = r.address := rfl
  rw [haddress]
  by_cases ha : a = r.address
  · subst ha
    rw [if_pos rfl, hstored, ← (SameBare.refl c).aggregate hbare,
      ← Resource.withAggregate_eq_of_bare hbare]
    simp
  · rw [if_neg ha]
    simp [ha]

end Content

namespace Store

variable {c : Content}

theorem reads_coverChild (parent : Resource) (list : RefList) (id : String) :
    Reads (coverChild parent list id) (·.coverChild parent list id) := by
  refine Reads.congr (Reads.bind (g := fun found _ => match found with
    | some child => ⟨[child.hash], 0⟩
    | none => ⟨[], 1⟩) (reads_get? _) fun found => ?_) fun c => rfl
  cases found with
  | some child => exact .pure _
  | none => exact .pure _

theorem reads_coverList (parent : Resource) (list : RefList) :
    Reads (coverList parent list) (·.coverList parent list) :=
  (Reads.mapM (reads_coverChild parent list) _).bind fun _ => .pure _

theorem reads_coverIntegration (integration : Resource) :
    Reads (coverIntegration integration) (·.coverIntegration integration) :=
  (Reads.mapM (reads_coverList integration) _).bind fun _ => .pure _

theorem reads_coverPolicy (policy : Resource) :
    Reads (coverPolicy policy) (·.coverPolicy policy) := by
  refine (Reads.mapM (f := fun id c => c.coverMember policy id) (fun id => ?_) _).bind fun _ =>
    .pure _
  refine Reads.congr (Reads.bind (g := fun found c => match found with
    | some integration => c.coverIntegration integration
    | none => ⟨[], 1⟩) (reads_get? _) fun found => ?_) fun c => rfl
  cases found with
  | some integration => exact reads_coverIntegration integration
  | none => exact .pure _

/-- Containers that the content holds, up to their aggregates. -/
def Holds (c : Content) (rs : List Resource) : Prop :=
  ∀ r ∈ rs, ∃ stored, c.get? r.address = some stored ∧ stored.bare = r.bare

theorem Holds.sameBare {c' : Content} {rs : List Resource} (h : Holds c rs)
    (hbare : Content.SameBare c c') : Holds c' rs := by
  intro r hr
  obtain ⟨stored, hstored, hr⟩ := h r hr
  obtain ⟨stored', hstored', hsame⟩ := hbare.exists_get? hstored
  exact ⟨stored', hstored', hsame.trans hr⟩

theorem ensures_refresh {cover : Resource → StoreM Coverage} {r : Resource}
    (hcover : Reads (cover r) (·.cover r)) (hheld : Holds c [r]) :
    Ensures (·.content = c) (refresh cover r)
      (fun _ s => Content.Refreshed (fun a => a == r.address) c s.content ∧
        Content.Upkeeps c s.content)
      (fun _ s => Content.Upkeeps c s.content) := by
  obtain ⟨stored, hstored, hbare⟩ := hheld r List.mem_cons_self
  refine Ensures.bind ((hcover c).mono_error fun _ _ h => h ▸ .refl)
    fun coverage => .of_and fun hcoverage => ?_
  subst hcoverage
  refine Ensures.bind ((ensures_create _ c).mono_error fun _ _ h => h ▸ .refl)
    fun _ => .pure fun s h => ?_
  rw [h]
  refine ⟨Content.refreshed_file hstored hbare, .single ?_⟩
  rw [← Resource.withAggregate_eq_of_bare hbare]
  exact .aggregate hstored _

theorem ensures_refreshAll {cover : Resource → StoreM Coverage} {rs : List Resource}
    (hcover : ∀ r ∈ rs, Reads (cover r) (·.cover r)) (hheld : Holds c rs) :
    Ensures (·.content = c) (rs.mapM (refresh cover))
      (fun _ s => Content.Refreshed (fun a => rs.any fun r => a == r.address) c s.content ∧
        Content.Upkeeps c s.content)
      (fun _ s => Content.Upkeeps c s.content) := by
  induction rs generalizing c with
  | nil =>
    refine .mapM_nil fun s h => ?_
    rw [h]
    exact ⟨.refl c, .refl⟩
  | cons r rs ih =>
    obtain ⟨hfirst, hrest⟩ := List.forall_mem_cons.mp hcover
    refine .mapM_cons (ensures_refresh hfirst fun r' hr' => hheld r' ?_) fun _ => ?_
    · exact List.mem_cons.mpr (.inl (List.mem_singleton.mp hr'))
    refine ensures_of_content (P := fun c' =>
      Content.Refreshed (fun a => a == r.address) c c' ∧ Content.Upkeeps c c') fun c' hc' => ?_
    obtain ⟨hrefreshed, hupkeeps⟩ := hc'
    have hleft : Holds c' rs :=
      Holds.sameBare (fun r' hr' => hheld r' (List.mem_cons_of_mem r hr')) hrefreshed.sameBare
    refine (ih hrest hleft).mono (fun _ h => h) ?_ fun _ _ h => hupkeeps.trans h
    rintro _ s ⟨hthen, hmore⟩
    exact ⟨hrefreshed.trans hthen, hupkeeps.trans hmore⟩

theorem ensures_refreshCollection {cover : Resource → StoreM Coverage} {kind : Kind} {space : Space}
    (hcover : ∀ r, r.kind = kind → Reads (cover r) (·.cover r)) (hc : c.Filed) :
    Ensures (·.content = c) (search kind space >>= fun rs => rs.mapM (refresh cover))
      (fun _ s => Content.Refreshed (fun a => a.kind == kind && a.space == space) c s.content ∧
        Content.Upkeeps c s.content)
      (fun _ s => Content.Upkeeps c s.content) := by
  refine Ensures.bind ((reads_search kind space c).mono_error fun _ _ h => h ▸ .refl)
    fun rs => .of_and fun hrs => ?_
  subst hrs
  have hfiled (r : Resource) (hr : r ∈ c.collection kind space) :
      c.get? r.address = some r ∧ r.kind = kind ∧ r.space = space := by
    obtain ⟨id, hid⟩ := Content.mem_collection_iff.mp hr
    have haddress := hc _ _ hid
    exact ⟨haddress ▸ hid, congrArg Address.kind haddress, congrArg Address.space haddress⟩
  have hheld : Holds c (c.collection kind space) := fun r hr => ⟨r, (hfiled r hr).1, rfl⟩
  refine (ensures_refreshAll (fun r hr => hcover r (hfiled r hr).2.1) hheld).mono_ok ?_
  rintro _ s ⟨hrefreshed, hupkeeps⟩
  refine ⟨hrefreshed.congr fun a r hr => ?_, hupkeeps⟩
  rw [Bool.eq_iff_iff, List.any_eq_true, Bool.and_eq_true, beq_iff_eq, beq_iff_eq]
  constructor
  · rintro ⟨r', hr', ha⟩
    rw [beq_iff_eq.mp ha]
    exact (hfiled r' hr').2
  · rintro ⟨rfl, rfl⟩
    exact ⟨r, Content.mem_collection_iff.mpr ⟨a.id, hr⟩, beq_iff_eq.mpr (hc a r hr).symm⟩

theorem cover_of_integration {r : Resource} (h : r.kind = .integration) :
    Reads (coverIntegration r) (·.cover r) :=
  (reads_coverIntegration r).congr fun c => by
    rw [Content.cover, if_neg (by rw [h]; nofun)]

theorem cover_of_policy {r : Resource} (h : r.kind = .policy) :
    Reads (coverPolicy r) (·.cover r) :=
  (reads_coverPolicy r).congr fun c => by rw [Content.cover, if_pos h]

theorem ensures_recalculateSpace (space : Space) (hc : c.Filed) :
    Ensures (·.content = c) (recalculateSpace space)
      (fun _ s => Content.Refreshed (fun a => a.space == space && a.kind.isContainer) c s.content ∧
        Content.Upkeeps c s.content)
      (fun _ s => Content.Upkeeps c s.content) := by
  unfold recalculateSpace
  rw [← bind_assoc]
  refine (ensures_refreshCollection (fun _ => cover_of_integration) hc).bind fun _ =>
    ensures_of_content (P := fun c' => Content.Refreshed
      (fun a => a.kind == .integration && a.space == space) c c' ∧ Content.Upkeeps c c')
      fun c' hc' => ?_
  obtain ⟨hintegrations, hupkeeps⟩ := hc'
  rw [← bind_assoc]
  refine ((ensures_refreshCollection (fun _ => cover_of_policy) (hupkeeps.filed hc)).mono_error
    fun _ _ h => hupkeeps.trans h).bind fun _ => .pure ?_
  rintro s ⟨hpolicies, hmore⟩
  refine ⟨(hintegrations.trans hpolicies).congr fun a r hr => ?_, hupkeeps.trans hmore⟩
  rw [Kind.isContainer, ← Bool.and_or_distrib_right, Bool.and_comm]

theorem ensures_recalculateAmong (spaces : List Space) (hc : c.Filed) :
    Ensures (·.content = c) (spaces.mapM recalculateSpace)
      (fun _ s => Content.Refreshed (fun a => spaces.contains a.space && a.kind.isContainer) c
        s.content ∧ Content.Upkeeps c s.content)
      (fun _ s => Content.Upkeeps c s.content) := by
  induction spaces generalizing c with
  | nil =>
    refine .mapM_nil fun s h => ?_
    rw [h]
    exact ⟨.refl c, .refl⟩
  | cons space spaces ih =>
    refine .mapM_cons (ensures_recalculateSpace space hc) fun _ =>
      ensures_of_content (P := fun c' => Content.Refreshed
        (fun a => a.space == space && a.kind.isContainer) c c' ∧ Content.Upkeeps c c')
        fun c' hc' => ?_
    obtain ⟨hrefreshed, hupkeeps⟩ := hc'
    refine (ih (hupkeeps.filed hc)).mono (fun _ h => h) ?_ fun _ _ h => hupkeeps.trans h
    rintro _ s ⟨hthen, hmore⟩
    refine ⟨(hrefreshed.trans hthen).congr fun a r hr => ?_, hupkeeps.trans hmore⟩
    rw [List.contains_cons, ← Bool.and_or_distrib_right]

/-- Every container of every space gets its aggregate, and nothing else changes. -/
theorem ensures_recalculate (hc : c.Filed) :
    Ensures (·.content = c) (recalculate Space.all)
      (fun _ s => Content.Refreshed (fun a => a.kind.isContainer) c s.content ∧
        Content.Upkeeps c s.content)
      (fun _ s => Content.Upkeeps c s.content) := by
  refine (ensures_recalculateAmong Space.all hc).bind fun _ => .pure ?_
  rintro s ⟨hrefreshed, hupkeeps⟩
  refine ⟨hrefreshed.congr fun a r _ => ?_, hupkeeps⟩
  cases a.space <;> rfl

/-- What seeing to it that a space has a policy does, and whether it creates one. -/
inductive Provided (space : Space) (c : Content) : Bool → Content → Prop
  | kept (hsome : c.collection .policy space ≠ []) : Provided space c false c
  | created {r : Resource} (hnone : c.collection .policy space = [])
      (hr : Resource.create .policy space defaultPolicyDocument = .ok r) :
      Provided space c true (c.file (r.withAggregate r.hash))

theorem ensures_provided (space : Space) (c : Content) :
    Ensures (·.content = c) (ensurePolicy space)
      (fun created s => Provided space c created s.content) (fun _ s => s.content = c) := by
  unfold ensurePolicy
  refine Ensures.bind (reads_policy? space c) fun policy => .of_and fun hpolicy => ?_
  replace hpolicy : policy = (c.collection .policy space).head? := hpolicy
  split
  · rename_i hsome
    refine .pure fun s hs => ?_
    rw [hs]
    refine .kept fun hnil => ?_
    rw [hpolicy, hnil] at hsome
    cases hsome
  · rename_i hnone
    have hnil : c.collection .policy space = [] := by
      rw [hpolicy] at hnone
      simpa using hnone
    refine Ensures.bind (.ofExcept (Q := fun r s =>
      Resource.create .policy space defaultPolicyDocument = .ok r ∧ s.content = c)
      (fun _ _ hr hs => ⟨hr, hs⟩) fun _ _ _ hs => hs) fun r => .of_and fun hr => ?_
    refine Ensures.bind (ensures_create _ c) fun _ => .pure fun s hs => ?_
    rw [hs]
    exact .created hnil hr

theorem ensures_ensurePolicy {space : Space} (hspace : space ∈ Space.ofUsers) (c : Content) :
    Ensures (·.content = c) (ensurePolicy space)
      (fun _ s => Content.Upkeeps c s.content ∧ s.content.collection .policy space ≠ [])
      (fun _ s => Content.Upkeeps c s.content) := by
  refine (ensures_provided space c).mono (fun _ h => h) ?_ fun _ s hs => hs ▸ .refl
  intro created s hs
  generalize s.content = c' at hs ⊢
  cases hs with
  | kept hsome => exact ⟨.refl, hsome⟩
  | created hnone hr =>
    refine ⟨.single (.policy hspace hnone hr), ?_⟩
    obtain ⟨-, rfl⟩ := Resource.create_eq_ok_iff.mp hr
    exact c.collection_file_ne_nil (Resource.withAggregate _ _)

theorem ensures_ensurePolicies {spaces : List Space} (hspaces : ∀ space ∈ spaces, space ∈ Space.ofUsers)
    (done : List Space) (c : Content) :
    Ensures (·.content = c) (List.filterAuxM ensurePolicy spaces done)
      (fun _ s => Content.Upkeeps c s.content ∧
        ∀ space ∈ spaces, s.content.collection .policy space ≠ [])
      (fun _ s => Content.Upkeeps c s.content) := by
  induction spaces generalizing done c with
  | nil =>
    refine .pure fun s h => ⟨h ▸ .refl, List.forall_mem_nil _⟩
  | cons space spaces ih =>
    obtain ⟨hspace, hrest⟩ := List.forall_mem_cons.mp hspaces
    refine Ensures.bind (ensures_ensurePolicy hspace c) fun created =>
      ensures_of_content (P := fun c' => Content.Upkeeps c c' ∧ c'.collection .policy space ≠ [])
        fun c' hc' => ?_
    obtain ⟨hupkeeps, hpolicy⟩ := hc'
    refine (ih hrest _ c').mono (fun _ h => h) ?_ fun _ _ h => hupkeeps.trans h
    rintro _ s ⟨hmore, hpolicies⟩
    exact ⟨hupkeeps.trans hmore,
      List.forall_mem_cons.mpr ⟨Content.Upkeeps.collection_ne_nil hmore hpolicy, hpolicies⟩⟩

theorem ensures_initializeSpaces (c : Content) :
    Ensures (·.content = c) initializeSpaces
      (fun _ s => Content.Upkeeps c s.content ∧
        ∀ space ∈ Space.ofUsers, s.content.collection .policy space ≠ [])
      (fun _ s => Content.Upkeeps c s.content) :=
  Ensures.bind (ensures_ensurePolicies (fun _ h => h) [] c) fun _ => .pure fun _ h => h

section Kept

variable {P : Content → Prop}

/-- What looking after containers keeps is kept by a recalculation, however it ends. -/
theorem keeps_recalculate (spaces : List Space) (hfiled : ∀ c, P c → c.Filed)
    (h : ∀ c c', P c → Content.Upkeeps c c' → P c') :
    Keeps (fun s => P s.content) (recalculate spaces) fun _ => True := by
  refine ensures_of_content fun c hc => ?_
  refine Ensures.bind ((ensures_recalculateAmong spaces (hfiled c hc)).mono_error fun _ s hs =>
    h c s.content hc hs) fun _ => .pure fun s hs => ⟨trivial, h c s.content hc hs.2⟩

theorem keeps_initializeSpaces (h : ∀ c c', P c → Content.Upkeeps c c' → P c') :
    Keeps (fun s => P s.content) initializeSpaces fun _ => True :=
  ensures_of_content fun c hc => (ensures_initializeSpaces c).mono (fun _ hs => hs)
    (fun _ s hs => ⟨trivial, h c s.content hc hs.1⟩) fun _ s hs => h c s.content hc hs

end Kept

theorem answers_coverChild (parent : Resource) (list : RefList) (id : String) :
    Answers (coverChild parent list id) := by
  refine Answers.bind (.call _ _) fun found => ?_
  cases found with
  | some child => exact .pure _
  | none => exact .pure _

theorem answers_coverIntegration (integration : Resource) :
    Answers (coverIntegration integration) :=
  (Answers.mapM (fun list => (Answers.mapM (answers_coverChild integration list) _).bind
    fun _ => .pure _) _).bind fun _ => .pure _

theorem answers_coverPolicy (policy : Resource) : Answers (coverPolicy policy) := by
  refine (Answers.mapM (fun id => ?_) _).bind fun _ => .pure _
  refine Answers.bind (.call _ _) fun found => ?_
  cases found with
  | some integration => exact answers_coverIntegration integration
  | none => exact .pure _

theorem checkDocument_default : checkDocument defaultPolicyDocument = .ok () := by rfl

theorem answers_ensurePolicy (space : Space) : Answers (ensurePolicy space) := by
  unfold ensurePolicy
  refine (answers_policy? space).bind fun policy => ?_
  split
  · exact .pure _
  · have hcreated : Resource.create .policy space defaultPolicyDocument = .ok _ :=
      Resource.create_eq_ok_iff.mpr ⟨checkDocument_default, rfl⟩
    rw [hcreated]
    exact Answers.bind (.pure _) fun _ => Answers.bind (.call _ _) fun _ => .pure _

theorem answers_initializeSpaces : Answers initializeSpaces := by
  have hamong (spaces done : List Space) : Answers (List.filterAuxM ensurePolicy spaces done) := by
    induction spaces generalizing done with
    | nil => exact .pure _
    | cons space spaces ih => exact (answers_ensurePolicy space).bind fun _ => ih _
  exact (hamong _ _).bind fun _ => .pure _

theorem answers_refresh {cover : Resource → StoreM Coverage} (h : ∀ r, Answers (cover r))
    (r : Resource) : Answers (refresh cover r) :=
  (h r).bind fun _ => Answers.bind (.call _ _) fun _ => .pure _

theorem answers_recalculate (spaces : List Space) : Answers (recalculate spaces) := by
  refine (Answers.mapM (fun space => ?_) spaces).bind fun _ => .pure _
  refine Answers.bind (.call _ _) fun integrations => ?_
  refine (Answers.mapM (answers_refresh answers_coverIntegration) integrations).bind fun _ => ?_
  refine Answers.bind (.call _ _) fun policies => ?_
  exact (Answers.mapM (answers_refresh answers_coverPolicy) policies).bind fun _ => .pure _

end Store

namespace Content

/-- What recalculating makes of the content when every call is answered. -/
def recalculated (c : Content) : Content :=
  match Store.recalculate Space.all (.ofContent c) with
  | .ok _ s => s.content
  | .error _ s => s.content

/-- Every user space has a policy, and every container carries the aggregate that recalculating
would write. -/
structure Settled (c : Content) : Prop where
  policies : ∀ space ∈ Space.ofUsers, c.collection .policy space ≠ []
  aggregates : ∀ a r, c.get? a = some r → a.kind.isContainer →
    ∃ digest, r.aggregate = some digest ∧
      (c.recalculated.get? a).bind Resource.aggregate = some digest

variable {c c' : Content}

theorem Filed.refreshed_recalculated (hc : c.Filed) :
    Refreshed (fun a => a.kind.isContainer) c c.recalculated := by
  unfold recalculated
  cases h : Store.recalculate Space.all (.ofContent c) with
  | ok n s => exact ((Store.ensures_recalculate hc).of_ok rfl h).1
  | error e s => exact ((Store.answers_recalculate Space.all).of_error (fun _ _ => rfl) h).elim

/-- Recalculated content carries the aggregates that recalculating it again would write. -/
theorem Refreshed.settled (h : Refreshed (fun a => a.kind.isContainer) c c') (hc : c'.Filed)
    (hpolicies : ∀ space ∈ Space.ofUsers, c'.collection .policy space ≠ []) : c'.Settled := by
  refine ⟨hpolicies, fun a r hr hkind => ⟨c'.aggregate r, h.aggregate_eq hkind hr, ?_⟩⟩
  rw [hc.refreshed_recalculated a, hr]
  simp only [Option.map_some, hkind, if_true, Option.bind_some]
  rfl

end Content

end ContentSpaces
