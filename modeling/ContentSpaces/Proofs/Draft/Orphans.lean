import ContentSpaces.Proofs.Draft.Upheld

/-!
# Orphans of failed creations

A draft that cannot be linked is deleted again. If nothing stood under its address the content is as
it was then, else what stood there is gone. So a creation under a new ID that fails before the draft
is linked leaves the content as it was. After that only the recalculation can fail, and nobody deletes
the draft then.
-/

namespace ContentSpaces

namespace Store

variable {c : Content} {o : Outage}

structure Under (o : Outage) (c : Content) (s : Store) : Prop where
  content : s.content = c
  outage : s.outage = o

theorem ensures_call_under {α : Type} (request : Call) (answer : Content → α × Content) :
    Ensures (Under o c) (call request answer)
      (fun a s => a = (answer c).1 ∧ Under o (answer c).2 s)
      (fun _ s => (∃ n, o n request = true) ∧ Under o c s) := by
  rintro s ⟨rfl, rfl⟩
  cases h : s.outage s.calls request with
  | true =>
    simp only [call, h]
    exact ⟨⟨_, h⟩, rfl, rfl⟩
  | false =>
    simp only [call, h]
    exact ⟨rfl, rfl, rfl⟩

theorem keeps_get?_under (a : Address) : Keeps (Under o c) (get? a) fun found => found = c.get? a :=
  (ensures_call_under _ _).mono_error fun _ _ h => h.2

theorem keeps_policy?_under (space : Space) : Keeps (Under o c) (policy? space) fun _ => True :=
  Keeps.bind (R := fun _ => True) ((ensures_call_under _ _).mono (fun _ h => h)
    (fun _ _ h => ⟨trivial, h.2⟩) fun _ _ h => h.2) fun _ _ => .pure trivial

theorem ensures_create_under (r : Resource) :
    Ensures (Under o c) (create r) (fun _ => Under o (c.file r)) (fun _ => Under o c) :=
  (ensures_call_under _ _).mono (fun _ h => h) (fun _ _ h => h.2) fun _ _ h => h.2

/-- A deletion that is never refused returns. -/
theorem ensures_delete_under {a : Address} (ho : ∀ n, o n (.delete a) = false) :
    Ensures (Under o c) (delete a) (fun _ => Under o (c.erase a)) (fun _ _ => False) := by
  refine (ensures_call_under _ _).mono (fun _ h => h) (fun _ _ h => h.2) ?_
  rintro _ s ⟨⟨n, hrefused⟩, -⟩
  rw [ho] at hrefused
  cases hrefused

end Store

namespace Content

variable {c : Content} {id : String}

/-- Draft holds no resource with the ID, and no draft container lists it. -/
def Absent (c : Content) (id : String) : Prop :=
  (∀ kind, ¬ c.Drafted kind id) ∧ ∀ list container, id ∉ c.listed list container

inductive Wrote (c : Content) : Content → Prop
  | nothing : Wrote c c
  | file (r : Resource) : Wrote c (c.file r)

theorem Wrote.filed {c' : Content} (h : Wrote c c') (hc : c.Filed) : c'.Filed := by
  cases h with
  | nothing => exact hc
  | file r => exact hc.file r

theorem Wrote.isSome {c' : Content} (h : Wrote c c') {a : Address} (ha : (c.get? a).isSome) :
    (c'.get? a).isSome := by
  cases h with
  | nothing => exact ha
  | file r =>
    rw [get?_file]
    split
    · rfl
    · exact ha

theorem erase_file (c : Content) (r : Resource) : (c.file r).erase r.address = c.erase r.address := by
  refine Table.ext_get? fun a => ?_
  rw [Table.get?_erase, Table.get?_erase]
  split
  · rfl
  · rename_i ha
    rw [get?_file, if_neg ha]

theorem erase_eq_self_iff {a : Address} : c.erase a = c ↔ c.get? a = none := by
  constructor
  · intro h
    rw [← h, Table.get?_erase, if_pos rfl]
  · intro h
    refine Table.ext_get? fun b => ?_
    rw [Table.get?_erase]
    split
    · rename_i hb
      rw [hb, h]
    · rfl

end Content

namespace Draft

open Desk Store

variable {c : Content} {o : Outage} {id : String} {kind : Kind} {document : Json}
  {parent : Option String}

/-- A creation up to the point where the draft is written and linked. -/
def author (id : String) (kind : Kind) (document : Json) (parent : Option String) :
    EditM Resource := do
  if kind = .policy ∨ kind = .ioc then throw (.notAuthored kind)
  let fs ← ofExcept (fields document)
  let position ← place kind parent
  let document := newDocument kind id fs
  validate kind document
  let r ← onStore (ofExcept (Resource.create kind .draft document))
  match position with
  | some (parent, list) => createLinked r parent list
  | none => onStore (Store.create r)
  return r

/-- After that a draft is registered and its containers get their aggregates. -/
theorem create_eq_author : create id kind document parent =
    author id kind document parent >>= fun r => register r >>= fun _ => recalculate := by
  unfold create author
  split
  · rfl
  · simp only [bind_assoc]
    refine bind_congr fun fs => bind_congr fun position => bind_congr fun _ => bind_congr fun r => ?_
    cases position <;> simp only [bind_assoc, pure_bind]

theorem keeps_place (kind : Kind) (parent : Option String) :
    Keeps (fun d => Under o c d.store) (place kind parent) fun _ => True := by
  unfold place
  split
  · exact .throw
  · refine (keeps_onStore (Q := fun _ => True)
      ((keeps_get?_under _).bind fun _ _ => .pure trivial)).bind fun there _ => ?_
    split
    · exact .pure trivial
    · exact .throw
  · split
    · exact .pure trivial
    · exact (keeps_onStore (keeps_policy?_under .draft)).bind fun _ _ => .pure trivial

/-- Linking makes its one write last, so it has failed before it. -/
theorem ensures_link_under (parent child : String) (list : RefList) :
    Ensures (fun d => Under o c d.store) (link parent child list)
      (fun _ d => c.Wrote d.store.content) (fun _ d => Under o c d.store) := by
  have hrequire : Keeps (fun d => Under o c d.store)
      (Desk.require ⟨list.containerKind, .draft, parent⟩) fun _ => True := by
    refine (keeps_onStore (keeps_get?_under _)).bind fun found _ => ?_
    cases found with
    | none => exact .throw
    | some r => exact .pure trivial
  refine Ensures.bind hrequire fun container => .of_and fun _ => ?_
  extract_lets ids
  split
  · exact .pure fun d hd => hd.content ▸ .nothing
  · refine ensures_onStore_of_ensures (P := Under o c) (Q := fun _ s => c.Wrote s.content) ?_
    refine Ensures.bind (.ofExcept (Q := fun _ => Under o c) (fun _ _ _ h => h) fun _ _ _ h => h)
      fun r => (ensures_create_under r).mono_ok fun _ s h => ?_
    exact h.content ▸ .file r

/-- A creation with a link that fails has not written the child, or has deleted it again. -/
theorem ensures_createLinked_undone {child : Resource}
    (ho : ∀ n, o n (.delete child.address) = false) (parent : String) (list : RefList) :
    Ensures (fun d => Under o c d.store) (createLinked child parent list)
      (fun _ d => (c.file child).Wrote d.store.content)
      (fun _ d => (∃ n, o n (.create child.address) = true) ∧ d.store.content = c ∨
        d.store.content = c.erase child.address) := by
  have hwrite : Ensures (Under o c) (Store.create child) (fun _ => Under o (c.file child))
      (fun _ s => (∃ n, o n (.create child.address) = true) ∧ s.content = c) :=
    (ensures_call_under _ _).mono (fun _ h => h) (fun _ _ h => h.2) fun _ _ h => ⟨h.1, h.2.content⟩
  refine Ensures.bind ((ensures_onStore_of_ensures hwrite).mono_error fun _ _ h => .inl h) fun _ => ?_
  -- Nothing has been written since the child, so deleting it leaves all but what it was written over.
  refine .tryCatch (ensures_link_under parent child.id list) fun e => ?_
  refine Ensures.bind (R := fun _ d => d.store.content = c.erase child.address) ?_ fun _ =>
    .throw fun _ h => .inr h
  refine .tryCatch (R := fun _ _ => False) ?_ fun _ _ h => h.elim
  refine Ensures.bind (ensures_onStore_of_ensures (E := fun _ => False) (ensures_delete_under ho))
    fun _ => .pure fun d hd => ?_
  rw [hd.content, Content.erase_file]

theorem ensures_createLinked_under {child : Resource} (hnew : c.get? child.address = none)
    (ho : ∀ n, o n (.delete child.address) = false) (parent : String) (list : RefList) :
    Ensures (fun d => Under o c d.store) (createLinked child parent list)
      (fun _ d => (c.file child).Wrote d.store.content) (fun _ d => d.store.content = c) := by
  refine (ensures_createLinked_undone ho parent list).mono_error fun _ d h => ?_
  obtain ⟨-, hunwritten⟩ | hdeleted := h
  · exact hunwritten
  · exact hdeleted.trans (Content.erase_eq_self_iff.mpr hnew)

/-- On a store that answers every call, a creation with a link that fails leaves nothing under the
address of the child, so the content is as before exactly if nothing stood there. -/
theorem createLinked_error_restores_iff {d d' : Desk} {e : EditError} {child : Resource}
    {parent : String} {list : RefList} (hup : d.store.Up)
    (hrun : createLinked child parent list d = .error e d') :
    d'.store.content = d.store.content.erase child.address ∧
      (d'.store.content = d.store.content ↔ d.store.content.get? child.address = none) := by
  have hundone := ensures_createLinked_undone (c := d.store.content) (o := d.store.outage)
    (fun n => hup n (.delete child.address)) parent list
  have hdeleted : d'.store.content = d.store.content.erase child.address := by
    obtain ⟨⟨n, hrefused⟩, -⟩ | hdeleted := hundone.of_error ⟨rfl, rfl⟩ hrun
    · cases hrefused.symm.trans (hup n _)
    · exact hdeleted
  refine ⟨hdeleted, ?_⟩
  rw [hdeleted]
  exact Content.erase_eq_self_iff

section Trial

def unhousedRule : Resource :=
  let document : Json := .object [("id", .string "r")]
  ⟨.rule, document, .draft, none, Digest.ofDocument document⟩

def answeringDesk (content : Content) : Desk where
  store := .ofContent content
  validator := ⟨Validator.acceptAll, 0⟩
  registry := .empty Registry.accepting

theorem up_answeringDesk (content : Content) : (answeringDesk content).store.Up := fun _ _ => rfl

/-- A rule whose integration is missing is written and deleted again. -/
theorem unparented_restored : ∃ e d',
    createLinked unhousedRule "i" .rules (answeringDesk .empty) = .error e d' ∧
      d'.store.content = .empty := by
  have hfails : failed (fun _ => true)
      (createLinked unhousedRule "i" .rules (answeringDesk .empty)) = true := by
    decide +kernel
  obtain ⟨e, d', hrun, -⟩ := eq_error_of_failed hfails
  exact ⟨e, d', hrun, (createLinked_error_restores_iff (up_answeringDesk .empty) hrun).2.mpr rfl⟩

/-- If the rule was there before, it is gone afterwards. -/
theorem occupied_not_restored : (answeringDesk (.file .empty unhousedRule)).store.Up ∧
    ∃ e d', createLinked unhousedRule "i" .rules (answeringDesk (.file .empty unhousedRule)) =
      .error e d' ∧ d'.store.content ≠ (answeringDesk (.file .empty unhousedRule)).store.content := by
  have hgone : failed (fun d => (d.store.content.get? unhousedRule.address).isNone)
      (createLinked unhousedRule "i" .rules (answeringDesk (.file .empty unhousedRule))) = true := by
    decide +kernel
  obtain ⟨e, d', hrun, hnone⟩ := eq_error_of_failed hgone
  refine ⟨up_answeringDesk _, e, d', hrun, fun hsame => ?_⟩
  rw [hsame] at hnone
  exact absurd hnone (by decide +kernel)

end Trial

theorem ensures_author (hfiled : c.Filed) (hnew : ¬ c.Drafted kind id)
    (ho : ∀ n a, o n (.delete a) = false) (document : Json) (parent : Option String) :
    Ensures (fun d => Under o c d.store) (author id kind document parent)
      (fun _ d => d.store.content.Filed ∧ d.store.content.Drafted kind id)
      (fun _ d => d.store.content = c) := by
  unfold author
  split
  · exact .throw_bind fun d hd => hd.content
  refine Ensures.bind (Ensures.ofExcept (Q := fun _ d => Under o c d.store) (fun _ _ _ h => h)
    fun _ _ _ h => h.content) fun fs => ?_
  refine Ensures.bind ((keeps_place kind parent).mono_error fun _ _ h => h.content)
    fun position => .of_and fun _ => ?_
  refine Ensures.bind (Ensures.mono_error (keeps_validate kind _) fun _ _ h => h.content)
    fun _ => .of_and fun _ => ?_
  refine Ensures.bind (Ensures.mono_error (keeps_onStore (Keeps.ofExcept fun r hr => hr))
    fun _ _ h => h.content) fun r => .of_and fun hr => ?_
  obtain ⟨-, hkind, hspace, hid, -⟩ := created hr
  have haddress : r.address = ⟨kind, .draft, id⟩ := by
    rw [Resource.address, hkind, hspace, hid]
  have hthere : (c.file r).Drafted kind id := by
    rw [Content.Drafted, Content.get?_file, if_pos haddress.symm]
    rfl
  cases position with
  | none =>
    refine Ensures.bind ((ensures_onStore_of_ensures (ensures_create_under r)).mono_error
      fun _ _ h => h.content) fun _ => .pure fun d hd => ?_
    rw [hd.content]
    exact ⟨hfiled.file r, hthere⟩
  | some position =>
    have hnone : c.get? r.address = none := by
      rw [haddress]
      exact Option.not_isSome_iff_eq_none.mp hnew
    refine Ensures.bind (ensures_createLinked_under hnone (fun n => ho n _) position.1 position.2)
      fun _ => .pure fun d hd => ⟨hd.filed (hfiled.file r), hd.isSome hthere⟩

/-- The registration and the recalculation leave the draft there, however they end. -/
theorem keeps_drafted (r : Resource) :
    Keeps (fun d => d.store.content.Filed ∧ d.store.content.Drafted kind id)
      (register r >>= fun _ => recalculate) fun _ => True := by
  refine (Upheld.register (I := fun s => s.content.Filed ∧ s.content.Drafted kind id) r).bind
    fun _ _ => ?_
  have hrecalculate := Store.keeps_recalculate (P := fun c => c.Filed ∧ c.Drafted kind id) [.draft]
    (fun c hc => hc.1) fun c c' hc hupkeeps =>
      ⟨Content.Upkeeps.filed hupkeeps hc.1, Content.Upkeeps.isSome hupkeeps hc.2⟩
  exact (keeps_onStore hrecalculate).bind fun _ _ => .pure trivial

/-- A creation that fails leaves nothing of the draft behind, and the content as it was, exactly if it
has not come to the registration. -/
theorem create_error_absent_iff {d d' : Desk} {e : EditError} (hfiled : d.store.content.Filed)
    (hdeletes : ∀ n a, d.store.outage n (.delete a) = false) (hnew : d.store.content.Absent id)
    (hrun : create id kind document parent d = .error e d') :
    (d'.store.content.Absent id ↔ ∀ r mid, author id kind document parent d ≠ .ok r mid) ∧
      (d'.store.content.Absent id → d'.store.content = d.store.content) := by
  have hauthor := ensures_author hfiled (hnew.1 kind) hdeletes document parent
  rw [create_eq_author] at hrun
  obtain hearly | ⟨r, mid, hauthored, hlate⟩ := bind_eq_error_iff.mp hrun
  · have hcontent : d'.store.content = d.store.content := hauthor.of_error ⟨rfl, rfl⟩ hearly
    refine ⟨⟨fun _ r mid hok => ?_, fun _ => hcontent ▸ hnew⟩, fun _ => hcontent⟩
    cases hearly.symm.trans hok
  · have hthere : d'.store.content.Filed ∧ d'.store.content.Drafted kind id :=
      (keeps_drafted r).of_error (hauthor.of_ok ⟨rfl, rfl⟩ hauthored) hlate
    have hstranded : ¬ d'.store.content.Absent id := fun habsent => habsent.1 kind hthere.2
    refine ⟨⟨fun habsent => absurd habsent hstranded, fun hnot => ?_⟩,
      fun habsent => absurd habsent hstranded⟩
    exact absurd hauthored (hnot r mid)

/-- The filter is written, then the recalculation is refused. -/
example : failed (fun d => decide (d.store.content.Drafted .filter "f"))
    (create "f" .filter (.object [("title", .string "F")]) none
      { answeringDesk .empty with
        store := ⟨.empty, fun _ request => request == .search .integration .draft, 0⟩ }) = true := by
  decide +kernel

end Draft

end ContentSpaces
