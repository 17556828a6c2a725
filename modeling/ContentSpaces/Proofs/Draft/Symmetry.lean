import ContentSpaces.Proofs.Draft.Lists
import ContentSpaces.Proofs.Json.Pointer
import Mathlib.Data.List.Nodup

/-!
# Unlinking undoes linking

Linking a child that no container lists and unlinking it again writes to one list of one container
what the list has been read as. If the list was an array of strings, that is what it was, and the
container is the one before; a list that was missing or held something else is now such an array.
-/

namespace ContentSpaces

namespace Resource

variable {r r' : Resource} {list : RefList} {child : String} {ids : List String}

structure Restored (list : RefList) (r r' : Resource) : Prop where
  outside : r.SameOutside list r'
  references : ∀ list', r'.references list' = r.references list'
  intact : r'.Intact
  /-- A list that was an array of strings is what it was. -/
  eq : r.Intact → r.document.Ordered → ∀ ids, r.document.field? list.key = some (.ofStrings ids) →
    r' = r

theorem relist_relist (r : Resource) (list : RefList) (ids ids' : List String) :
    (r.relist list ids).relist list ids' = r.relist list ids' := by
  unfold relist
  cases r.document with
  | object fs => simp only [Entries.insert_insert]
  | _ => rfl

/-- An array of strings is read as it is, so writing what is read changes nothing. -/
theorem relist_references (hr : r.Intact) (hordered : r.document.Ordered)
    (hids : r.document.field? list.key = some (.ofStrings ids)) :
    r.relist list (r.references list) = r := by
  obtain ⟨fs, hfs⟩ := hr.exists_fields
  have hhash := hr.hash
  rw [references_of_field? hids]
  rw [hfs] at hids hordered hhash
  have hsame : Entries.insert list.key (.ofStrings ids) fs = fs :=
    (Json.ordered_object_iff.mp hordered).1.insert_eq_self hids
  simp only [relist, hfs, hsame, ← hhash]
  rw [← hfs]

theorem restored_relist (hr : r.Storable) (list : RefList) :
    r.Restored list (r.relist list (r.references list)) where
  outside := sameOutside_relist hr list _
  references list' := by
    rw [references_relist hr]
    split
    · rename_i hlist
      rw [hlist]
    · rfl
  intact := ⟨hr.relist list _, rfl⟩
  eq hintact hordered _ hids := relist_references hintact hordered hids

theorem mem_references_enlist (hr : r.Storable) (list : RefList) (child : String) :
    child ∈ (r.enlist list child).references list := by
  rw [references_enlist hr]
  by_cases hchild : child ∈ r.references list <;> simp [hchild]

theorem enlist_enlist (hr : r.Storable) (list : RefList) (child : String) :
    (r.enlist list child).enlist list child = r.enlist list child :=
  enlist_of_mem (mem_references_enlist hr list child)

theorem delist_enlist (hr : r.Storable) (h : child ∉ r.references list) :
    (r.enlist list child).delist list child = r.relist list (r.references list) := by
  have hreferences : (r.enlist list child).references list = r.references list ++ [child] := by
    rw [references_enlist hr, if_pos ⟨rfl, h⟩]
  rw [delist, if_pos (List.contains_iff_mem.mpr (mem_references_enlist hr list child)), hreferences,
    List.filter_append, filter_ne_of_not_mem h, enlist, if_neg (mt List.contains_iff_mem.mp h),
    relist_relist]
  simp

end Resource

namespace Content

variable {c : Content} {r : Resource} {list : RefList} {parent child : String}

theorem Filed.nodup_collection (hc : c.Filed) (kind : Kind) (space : Space) :
    (c.collection kind space).Nodup := by
  let among := c.filterKeys fun a => a.kind == kind && a.space == space
  have hentries : among.entries.Nodup := among.ascending.imp fun hlt => by
    rintro rfl
    exact Entries.ne_of_compare_lt hlt rfl
  have haddress (a : Address) (r : Resource) (h : (a, r) ∈ among.entries) : r.address = a := by
    have hget := Table.mem_entries_iff.mp h
    rw [Table.get?_filterKeys] at hget
    split at hget
    · exact hc a r hget
    · cases hget
  refine List.Nodup.map_on ?_ hentries
  rintro ⟨a, r⟩ hr ⟨b, r'⟩ hr' (rfl : r = r')
  rw [← haddress a r hr, ← haddress b r hr']

theorem linked_linked (hc : c.Filed) (hstorable : c.Storable) (parent child : String)
    (list : RefList) : (c.linked parent child list).linked parent child list =
      c.linked parent child list := by
  have hlinked : (c.linked parent child list).Filed := hc.mapValues (relisted_linkAt _ _ _)
  refine Table.ext_get? fun a => ?_
  rw [hlinked.get?_linked, hc.get?_linked, Option.map_map]
  refine Option.map_congr fun r hr => ?_
  by_cases ha : a = ⟨list.containerKind, .draft, parent⟩
  · simp only [Function.comp, if_pos ha]
    exact Resource.enlist_enlist (hstorable a r hr) list child
  · simp only [Function.comp, if_neg ha]

section Free

variable (hc : c.Filed) (hstorable : c.Storable)
  (hr : c.get? ⟨list.containerKind, .draft, parent⟩ = some r)
  (hfree : ∀ q, child ∉ c.listed list q)

include hc hstorable hr hfree

/-- Only the list of the parent is written, by the link and by its removal. -/
theorem unlinked_linked : (c.linked parent child list).unlinked child list =
    c.file (r.relist list (r.references list)) := by
  have hlinked : (c.linked parent child list).Filed := hc.mapValues (relisted_linkAt _ _ _)
  have haddress : (r.relist list (r.references list)).address =
      ⟨list.containerKind, .draft, parent⟩ :=
    (Resource.Relisted.list list _).address.trans (hc _ _ hr)
  refine Table.ext_get? fun a => ?_
  rw [hlinked.get?_unlinked, hc.get?_linked, Option.map_map, get?_file, haddress]
  by_cases ha : a = ⟨list.containerKind, .draft, parent⟩
  · subst ha
    have hchild : child ∉ r.references list := listed_of_get? hr ▸ hfree parent
    simp only [hr, Option.map_some, Function.comp, if_true, and_self,
      Resource.delist_enlist (hstorable _ _ hr) hchild]
  · rw [if_neg ha]
    refine (Option.map_congr fun q hq => ?_).trans Option.map_id'
    simp only [Function.comp, if_neg ha]
    split
    · rename_i hcontainer
      refine Resource.delist_of_not_mem ?_
      obtain ⟨kind, space, id⟩ := a
      obtain ⟨rfl, rfl⟩ := hcontainer
      exact listed_of_get? hq ▸ hfree id
    · rfl

/-- Once the child is linked, the parent alone lists it. -/
theorem holders_linked : ((c.linked parent child list).collection list.containerKind .draft).filter
    (fun q => (q.references list).contains child) = [r.enlist list child] := by
  have hlinked : (c.linked parent child list).Filed := hc.mapValues (relisted_linkAt _ _ _)
  refine List.perm_singleton.mp ((List.perm_ext_iff_of_nodup
    ((hlinked.nodup_collection _ _).filter _) (List.nodup_singleton _)).mpr fun q => ?_)
  have hparent : (c.linked parent child list).get? ⟨list.containerKind, .draft, parent⟩ =
      some (r.enlist list child) := by
    rw [hc.get?_linked, hr]
    simp
  rw [List.mem_filter, List.mem_singleton, mem_collection_iff, List.contains_iff_mem]
  constructor
  · rintro ⟨⟨id, hq⟩, hchild⟩
    rw [← listed_of_get? hq,
      Draft.listed_linked hc hstorable (Option.isSome_of_eq_some hr)] at hchild
    by_cases hid : id = parent
    · rw [hid, hparent] at hq
      exact (Option.some.inj hq).symm
    · rw [if_neg fun h => hid h.2.1] at hchild
      exact absurd hchild (hfree id)
  · rintro rfl
    exact ⟨⟨parent, hparent⟩, Resource.mem_references_enlist (hstorable _ _ hr) list child⟩

end Free

end Content

namespace Draft

open Desk Content

variable {c : Content} {w : Worktop} {r : Resource} {list : RefList} {parent child : String}
  {E : EditError → Desk → Prop}

def linkTimes (parent child : String) (list : RefList) : Nat → EditM Unit
  | 0 => return
  | n + 1 => do
    link parent child list
    linkTimes parent child list n

theorem ensures_linkTimes (hfiled : w.content.Filed) (hstorable : w.content.Storable)
    (hparent : w.content.Drafted list.containerKind parent) (child : String) (n : Nat) :
    Ensures (At w) (linkTimes parent child list (n + 1))
      (fun _ => At { w with content := w.content.linked parent child list }) E := by
  -- Every link but the first finds the child in the list.
  induction n generalizing w with
  | zero =>
    exact Ensures.bind (ensures_link hfiled hstorable hparent child) fun _ => .pure fun _ h => h
  | succ n ih =>
    refine Ensures.bind (ensures_link hfiled hstorable hparent child) fun _ => ?_
    have hrest := ih (w := { w with content := w.content.linked parent child list })
      (hfiled.mapValues (relisted_linkAt _ _ _)) (hstorable.mapValues (relisted_linkAt _ _ _))
      ((drafted_linked _ _ _ _ _).mpr hparent)
    rwa [linked_linked hfiled hstorable] at hrest

/-- Unlinking names the containers that it finds the child in. -/
theorem ensures_unlink_holders (child : String) (list : RefList) :
    Ensures (fun d => d.store.content = c) (unlink child list)
      (fun ids _ => ids = ((c.collection list.containerKind .draft).filter
        fun r => (r.references list).contains child).map Resource.id) (fun _ _ => True) := by
  have htest (r : Resource) : Keeps (fun _ => True) (unlinkFrom child list r)
      fun b => b = (r.references list).contains child := by
    unfold unlinkFrom
    extract_lets ids
    split
    · rename_i habsent
      exact .pure (by simpa [ids] using habsent)
    · rename_i hpresent
      refine (Keeps.ofExcept (Q := fun _ => True) fun _ _ => trivial).bind fun r' _ => ?_
      refine (Store.keeps_create (P := fun _ => True) fun _ _ => trivial).bind fun _ _ => ?_
      exact .pure (by simpa [ids] using hpresent)
  refine ensures_onStore_of_ensures (P := fun s => s.content = c) (Q := fun ids _ => ids = _)
    (E := fun _ => True) ?_
  refine Ensures.bind ((Store.reads_search _ _ c).mono_error fun _ _ _ => trivial) fun containers =>
    .of_and ?_
  rintro rfl
  refine Ensures.bind (Ensures.mono (Keeps.filterM_eq htest) (fun _ _ => trivial) (fun _ _ h => h)
    fun _ _ h => h) fun holders => .of_and ?_
  rintro rfl
  exact .pure fun _ _ => rfl

/-- Links and the unlinking after them return the parent, whose list they write as it is read. -/
theorem ensures_linkTimes_unlink (hfiled : w.content.Filed) (hstorable : w.content.Storable)
    (hr : w.content.get? ⟨list.containerKind, .draft, parent⟩ = some r)
    (hfree : ∀ q, child ∉ w.content.listed list q) (n : Nat) :
    Ensures (At w) (linkTimes parent child list (n + 1) >>= fun _ => unlink child list)
      (fun ids d => ids = [parent] ∧
        At { w with content := w.content.file (r.relist list (r.references list)) } d)
      (fun _ _ => False) := by
  let linked : Worktop := { w with content := w.content.linked parent child list }
  refine Ensures.bind (ensures_linkTimes hfiled hstorable (Option.isSome_of_eq_some hr) child n)
    fun _ => ?_
  have hunlink := (ensures_unlink (w := linked) (E := fun _ _ => False)
    (hfiled.mapValues (relisted_linkAt _ _ _)) (hstorable.mapValues (relisted_linkAt _ _ _))
    child list).and (ensures_unlink_holders (c := linked.content) child list)
  refine hunlink.mono (fun d hd => ⟨hd, hd.content⟩) ?_ fun _ _ h => h.1
  rintro ids d ⟨hd, rfl⟩
  have hparent : (r.enlist list child).id = parent :=
    congrArg Address.id ((r.relisted_enlist list child).address.trans (hfiled _ _ hr))
  refine ⟨?_, ?_⟩
  · rw [holders_linked hfiled hstorable hr hfree, List.map_singleton, hparent]
  · rwa [unlinked_linked hfiled hstorable hr hfree] at hd

/-- Linking a child that no container lists, any number of times, and unlinking it again names the
parent, leaves every other resource and writes the list of the parent as it is read. -/
theorem linked_unlinked_restored {d : Desk} (hup : d.store.Up) (hfiled : d.store.content.Filed)
    (hstorable : d.store.content.Storable)
    (hr : d.store.content.get? ⟨list.containerKind, .draft, parent⟩ = some r)
    (hfree : ∀ q, child ∉ d.store.content.listed list q) (n : Nat) :
    ∃ d' r', (do linkTimes parent child list (n + 1); unlink child list) d = .ok [parent] d' ∧
      d'.store.content.get? ⟨list.containerKind, .draft, parent⟩ = some r' ∧
      (∀ a, a ≠ ⟨list.containerKind, .draft, parent⟩ →
        d'.store.content.get? a = d.store.content.get? a) ∧
      r.Restored list r' := by
  have hrun := ensures_linkTimes_unlink (w := d.worktop) hfiled hstorable hr hfree n d ⟨rfl, hup⟩
  split at hrun
  · rename_i ids d' hok
    obtain ⟨rfl, hd'⟩ := hrun
    have haddress : (r.relist list (r.references list)).address =
        ⟨list.containerKind, .draft, parent⟩ :=
      (Resource.Relisted.list list _).address.trans (hfiled _ _ hr)
    refine ⟨d', _, hok, ?_, fun a ha => ?_, Resource.restored_relist (hstorable _ _ hr) list⟩
    · rw [hd'.content, get?_file, haddress, if_pos rfl]
    · rw [hd'.content, get?_file, haddress, if_neg ha]
      rfl
  · exact hrun.elim

section Trial

def listingIntegration (id : String) (rules : Json) : Resource :=
  let document : Json := .object [("id", .string id), ("rules", rules)]
  ⟨.integration, document, .draft, some "aggregate", Digest.ofDocument document⟩

def listingContent : Content :=
  (Content.file .empty (listingIntegration "j" (.string "none"))).file
    (listingIntegration "i" (.ofStrings ["a", "b", "a"]))

def listingDesk : Desk where
  store := .ofContent listingContent
  validator := ⟨Validator.acceptAll, 0⟩
  registry := .empty Registry.accepting

theorem not_mem_listed_listingContent (q : String) : "r" ∉ listingContent.listed .rules q := by
  unfold listingContent
  rw [listed_file rfl, listed_file rfl]
  split
  · decide
  · split
    · decide
    · exact nofun

/-- The child is linked twice; an array of strings with repetitions is restored. -/
theorem linked_twice_restored : ∃ d',
    (do linkTimes "i" "r" .rules 2; unlink "r" .rules) listingDesk = .ok ["i"] d' ∧
      d'.store.content.get? ⟨.integration, .draft, "i"⟩ =
        some (listingIntegration "i" (.ofStrings ["a", "b", "a"])) := by
  let i := listingIntegration "i" (.ofStrings ["a", "b", "a"])
  let j := listingIntegration "j" (.string "none")
  have hstorable : listingContent.Storable :=
    (Intact.empty.storable.file (r := j) rfl).file (r := i) rfl
  have hi : listingContent.get? ⟨RefList.rules.containerKind, .draft, "i"⟩ = some i := by
    unfold listingContent
    rw [get?_file]
    rfl
  obtain ⟨d', r', hrun, hget, -, hrestored⟩ := linked_unlinked_restored (d := listingDesk)
    (fun _ _ => rfl) ((Filed.empty.file _).file _) hstorable hi not_mem_listed_listingContent 1
  refine ⟨d', hrun, ?_⟩
  have hordered : i.document.Ordered :=
    ⟨by decide, trivial, ⟨trivial, trivial, trivial, trivial⟩, trivial⟩
  rw [hrestored.eq ⟨rfl, rfl⟩ hordered ["a", "b", "a"] rfl] at hget
  exact hget

end Trial

end Draft

end ContentSpaces
