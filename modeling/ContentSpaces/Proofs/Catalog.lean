import ContentSpaces.Proofs.Content
import ContentSpaces.Sync.Cycle

/-!
# The catalog of a space

A remote log speaks of documents by kind and ID. The catalog of a space is this view of its
resources, and a change of the log acts on it without any store (`Catalog.apply`).
-/

namespace ContentSpaces

abbrev Catalog := Table Subject Json

def Address.subject (a : Address) : Subject := ⟨a.kind, a.id⟩

def Resource.subject (r : Resource) : Subject := ⟨r.kind, r.id⟩

def Catalog.enterAll (cat : Catalog) (rs : List Resource) : Catalog :=
  rs.foldl (fun cat r => cat.insert r.subject r.document) cat

theorem Address.compare_of_space_eq {a b : Address} (h : a.space = b.space) :
    compare a b = compare a.subject b.subject := by
  show (compare a.kind b.kind).then ((compare a.space b.space).then (compare a.id b.id)) =
    (compare a.kind b.kind).then (compare a.id b.id)
  rw [h, (Std.ReflCmp.compare_self : compare b.space b.space = .eq)]
  rfl

namespace Content

variable {c : Content} {space : Space}

def catalog (c : Content) (space : Space) : Catalog where
  entries := (c.entries.filter fun e => e.1.space == space).map fun e =>
    (e.1.subject, e.2.document)
  ascending := by
    refine List.pairwise_map.mpr (List.Pairwise.imp_of_mem ?_ (c.ascending.filter _))
    intro e e' he he' hlt
    have hspace : e.1.space = e'.1.space := by
      have h := (List.mem_filter.mp he).2
      have h' := (List.mem_filter.mp he').2
      exact (beq_iff_eq.mp h).trans (beq_iff_eq.mp h').symm
    exact Address.compare_of_space_eq hspace ▸ hlt

theorem get?_catalog (c : Content) (space : Space) (s : Subject) :
    (c.catalog space).get? s = (c.get? ⟨s.kind, space, s.id⟩).map Resource.document := by
  apply Option.ext
  intro document
  rw [← Table.mem_entries_iff, Option.map_eq_some_iff]
  constructor
  · intro h
    obtain ⟨⟨⟨kind, space', id⟩, r⟩, hfilter, heq⟩ := List.mem_map.mp h
    obtain ⟨hmem, hspace⟩ := List.mem_filter.mp hfilter
    cases heq
    cases beq_iff_eq.mp hspace
    exact ⟨r, Table.mem_entries_iff.mp hmem, rfl⟩
  · rintro ⟨r, hr, rfl⟩
    exact List.mem_map.mpr ⟨(⟨s.kind, space, s.id⟩, r),
      List.mem_filter.mpr ⟨Table.mem_entries_iff.mpr hr, by simp⟩, rfl⟩

theorem catalog_file (c : Content) (r : Resource) :
    (c.file r).catalog r.space = (c.catalog r.space).insert r.subject r.document := by
  apply Table.ext_get?
  intro s
  rw [get?_catalog, get?_file, Table.get?_insert, get?_catalog]
  have h : (⟨s.kind, r.space, s.id⟩ : Address) = r.address ↔ s = r.subject := by
    cases s
    simp [Resource.address, Resource.subject]
  by_cases hs : s = r.subject
  · rw [if_pos (h.mpr hs), if_pos hs]
    rfl
  · rw [if_neg (mt h.mp hs), if_neg hs]

theorem catalog_fileAll (c : Content) {rs : List Resource} (hrs : ∀ r ∈ rs, r.space = space) :
    (c.fileAll rs).catalog space = Catalog.enterAll (c.catalog space) rs := by
  induction rs generalizing c with
  | nil => rfl
  | cons r rs ih =>
    obtain ⟨rfl, hrest⟩ := List.forall_mem_cons.mp hrs
    rw [fileAll, List.foldl_cons, ← fileAll, ih _ hrest, catalog_file]
    rfl

theorem catalog_erase (c : Content) (kind : Kind) (space : Space) (id : String) :
    catalog (c.erase ⟨kind, space, id⟩) space = (c.catalog space).erase ⟨kind, id⟩ := by
  apply Table.ext_get?
  intro s
  rw [get?_catalog, Table.get?_erase, Table.get?_erase, get?_catalog]
  cases s
  simp only [Address.mk.injEq, true_and, Subject.mk.injEq]
  split <;> rfl

end Content

namespace Catalog

def registrable (cat : Catalog) : Registered := cat.filterKeys fun s => s.kind.isRegistrable

theorem get?_registrable (cat : Catalog) (s : Subject) :
    cat.registrable.get? s = if s.kind.isRegistrable then cat.get? s else none :=
  Table.get?_filterKeys ..

def policyId? (cat : Catalog) : Option String :=
  (cat.entries.find? fun e => e.1.kind == .policy).map fun e => e.1.id

def locate? (cat : Catalog) (id : String) : Option Kind :=
  Kind.all.find? fun kind => cat.contains ⟨kind, id⟩

def target? (cat : Catalog) (resource : String) : Option Subject :=
  match if resource = Cycle.policyAlias then cat.policyId? else none with
  | some id => some ⟨.policy, id⟩
  | none => (cat.locate? resource).map fun kind => ⟨kind, resource⟩

def admit? (document : Json) : Option Json :=
  match checkDocument (Sanitize.document document) with
  | .ok _ => some (Sanitize.document document)
  | .error _ => none

def upsert? (space : Space) (kind : Kind) (document : Json) : Option Task :=
  if kind.isRegistrable then some (.upsert kind space document) else none

/-- What a change does, and the catalog after it; a change that cannot be applied has neither. -/
def apply (space : Space) (cat : Catalog) (change : Change) : Option (Cycle.Effect × Catalog) :=
  match change.kind with
  | .create => do
    let payload ← change.payload
    match payload.kind? with
    | none => some (.skipped, cat)
    | some kind =>
      let document ← admit? payload.document
      some (.changed (upsert? space kind document),
        cat.insert ⟨kind, documentId document⟩ document)
  | .update => do
    let target ← cat.target? change.resource
    let current ← cat.get? target
    let patched ← (Patch.applyAll current change.operations).toOption
    let document ← admit? patched
    some (.changed (upsert? space target.kind document),
      cat.insert ⟨target.kind, documentId document⟩ document)
  | .delete =>
    match cat.locate? change.resource with
    | none => some (.skipped, cat)
    | some kind => some (.changed (Task.delete? kind change.resource), cat.erase ⟨kind, change.resource⟩)

def applyAll (space : Space) : Catalog → List Change → Option (List Cycle.Effect × Catalog)
  | cat, [] => some ([], cat)
  | cat, change :: changes => do
    let (effect, cat) ← cat.apply space change
    let (effects, cat) ← cat.applyAll space changes
    some (effect :: effects, cat)

variable {space : Space} {cat cat' cat'' : Catalog}

theorem admit?_eq_none_of_ingest {kind : Kind} {document : Json} {e : ContentError}
    (h : Resource.ingest kind space document = .error e) : admit? document = none := by
  unfold Resource.ingest Resource.create at h
  unfold admit?
  cases hchecked : checkDocument (Sanitize.document document) with
  | ok u =>
    rw [hchecked] at h
    cases h
  | error e => rfl

theorem stringField_id_of_admit? {document admitted : Json}
    (h : admit? document = some admitted) :
    admitted.stringField? "id" = some (documentId admitted) := by
  unfold admit? at h
  cases hchecked : checkDocument (Sanitize.document document) with
  | ok u =>
    rw [hchecked] at h
    cases h
    exact stringField_id_of_checkDocument hchecked
  | error e =>
    rw [hchecked] at h
    cases h

theorem applyAll_append {effects effects' : List Cycle.Effect} {xs ys : List Change}
    (hxs : cat.applyAll space xs = some (effects, cat'))
    (hys : cat'.applyAll space ys = some (effects', cat'')) :
    cat.applyAll space (xs ++ ys) = some (effects ++ effects', cat'') := by
  induction xs generalizing cat effects with
  | nil =>
    cases hxs
    exact hys
  | cons x xs ih =>
    obtain ⟨⟨effect, mid⟩, hx, h⟩ := Option.bind_eq_some_iff.mp hxs
    obtain ⟨⟨rest, last⟩, hrest, h⟩ := Option.bind_eq_some_iff.mp h
    cases h
    rw [List.cons_append, applyAll, hx]
    simp [ih hrest]

end Catalog

namespace Content

variable {c : Content} {space : Space}

theorem Filed.policyId?_catalog (hc : c.Filed) :
    (c.catalog space).policyId? = (c.collection .policy space).head?.map Resource.id := by
  unfold Catalog.policyId? catalog collection Table.values Table.filterKeys
  rw [List.find?_map, List.find?_filter, List.head?_map, List.head?_filter, Option.map_map,
    Option.map_map]
  have hp : (fun e : Address × Resource => decide ((e.1.space == space) = true ∧
      (e.1.subject.kind == Kind.policy) = true)) =
      fun e => e.1.kind == .policy && e.1.space == space := by
    funext e
    rw [Bool.decide_and, Bool.decide_eq_true, Bool.decide_eq_true, Bool.and_comm]
    rfl
  simp only [Function.comp_def, hp]
  refine Option.map_congr fun e he => ?_
  exact congrArg Address.id (hc _ _ (Table.mem_entries_iff.mp (List.mem_of_find?_eq_some he))).symm

theorem locate?_catalog (c : Content) (space : Space) (id : String) :
    (c.catalog space).locate? id =
      Kind.all.find? fun kind => (c.get? ⟨kind, space, id⟩).isSome := by
  unfold Catalog.locate? Table.contains
  simp only [get?_catalog, Option.isSome_map]

/-- Looking after containers adds policies of users and changes no document. -/
theorem Upkeep.get?_catalog {c' : Content} (h : Upkeep c c') (hc : c.Filed) {s : Subject}
    (hs : space ∉ Space.ofUsers ∨ s.kind ≠ .policy) :
    (c'.catalog space).get? s = (c.catalog space).get? s := by
  rw [Content.get?_catalog, Content.get?_catalog]
  cases h with
  | policy hspace hnone hr =>
    obtain ⟨-, rfl⟩ := Resource.create_eq_ok_iff.mp hr
    rw [get?_file, if_neg]
    intro ha
    obtain ⟨hkind, hspace', -⟩ := Address.mk.inj ha
    obtain hs | hs := hs
    · exact hs (hspace' ▸ hspace)
    · exact hs hkind
  | aggregate hstored digest =>
    rename_i a r
    have haddress := hc a r hstored
    rw [get?_file]
    split
    · rename_i ha
      have ha : ⟨s.kind, space, s.id⟩ = a := ha.trans haddress
      rw [ha, hstored]
      rfl
    · rfl

theorem Upkeeps.get?_catalog {c' : Content} (h : Upkeeps c c') (hc : c.Filed) {s : Subject}
    (hs : space ∉ Space.ofUsers ∨ s.kind ≠ .policy) :
    (c'.catalog space).get? s = (c.catalog space).get? s := by
  induction h with
  | refl => rfl
  | tail hfirst hlast ih => exact (hlast.get?_catalog (Upkeeps.filed hfirst hc) hs).trans ih

theorem Upkeeps.catalog_eq {c' : Content} (h : Upkeeps c c') (hc : c.Filed)
    (hspace : space ∉ Space.ofUsers) : c'.catalog space = c.catalog space :=
  Table.ext_get? fun _ => Upkeeps.get?_catalog h hc (.inl hspace)

/-- A creation acts on the catalog as the write does on the content. -/
theorem apply_catalog_of_ingest (c : Content) {change : Change} (hkind : change.kind = .create)
    {payload : Payload} (hpayload : change.payload = some payload) {kind : Kind}
    (hknown : payload.kind? = some kind) {r : Resource}
    (hr : Resource.ingest kind space payload.document = .ok r) :
    (c.catalog space).apply space change =
      some (.changed (Task.upsert? r), (c.file r).catalog space) := by
  obtain ⟨hchecked, rfl⟩ := Resource.create_eq_ok_iff.mp hr
  unfold Catalog.apply
  rw [hkind, hpayload]
  simp only [Option.bind_eq_bind, Option.bind_some, hknown, Catalog.admit?, hchecked]
  exact congrArg (fun cat => some (_, cat)) (c.catalog_file ⟨kind, _, space, _, _⟩).symm

theorem Filed.apply_catalog_of_applyPatch (hc : c.Filed) {change : Change}
    (hkind : change.kind = .update) {target : Address}
    (htarget : (c.catalog space).target? change.resource = some target.subject)
    (hspace : target.space = space) {current r : Resource} (hstored : c.get? target = some current)
    (hr : current.applyPatch change.operations = .ok r) :
    (c.catalog space).apply space change =
      some (.changed (Task.upsert? r), (c.file r).catalog space) := by
  obtain ⟨patched, hpatched, hdocument⟩ := Resource.applyPatch_eq_ok_iff.mp hr
  obtain ⟨hchecked, rfl⟩ := Resource.withDocument_eq_ok_iff.mp hdocument
  have haddress := hc _ _ hstored
  obtain rfl : current.space = space := (congrArg Address.space haddress).trans hspace
  replace htarget : (c.catalog current.space).target? change.resource = some current.subject := by
    rw [htarget, ← haddress]
    rfl
  have hcurrent : (c.catalog current.space).get? current.subject = some current.document := by
    rw [get?_catalog]
    exact congrArg (Option.map Resource.document) (haddress ▸ hstored)
  unfold Catalog.apply
  rw [hkind]
  simp only [htarget, hcurrent, hpatched, Option.bind_eq_bind, Option.bind_some,
    Except.toOption, Catalog.admit?, hchecked]
  exact congrArg (fun cat => some (_, cat)) (c.catalog_file ⟨_, _, current.space, _, _⟩).symm

theorem apply_catalog_eq_none {change : Change} (hkind : change.kind = .update) {target : Address}
    (htarget : (c.catalog space).target? change.resource = some target.subject)
    (hspace : target.space = space)
    (h : ∀ r r', c.get? target = some r → r.applyPatch change.operations ≠ .ok r') :
    (c.catalog space).apply space change = none := by
  have hcurrent : (c.catalog space).get? target.subject =
      (c.get? target).map Resource.document := by
    rw [get?_catalog, ← hspace]
    rfl
  unfold Catalog.apply
  rw [hkind]
  simp only [htarget, hcurrent, Option.bind_eq_bind, Option.bind_some]
  cases hstored : c.get? target with
  | none => rfl
  | some r =>
    simp only [Option.map_some, Option.bind_some]
    cases hpatched : Patch.applyAll r.document change.operations with
    | error e => rfl
    | ok patched =>
      simp only [Except.toOption, Option.bind_some, Catalog.admit?]
      cases hchecked : checkDocument (Sanitize.document patched) with
      | error e => rfl
      | ok u =>
        have hpatch := Resource.applyPatch_eq_ok_iff.mpr
          ⟨patched, hpatched, Resource.withDocument_eq_ok_iff.mpr ⟨hchecked, rfl⟩⟩
        exact absurd hpatch (h r _ hstored)

end Content

end ContentSpaces
