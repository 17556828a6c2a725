import ContentSpaces.Proofs.Cycle.Splitting
import ContentSpaces.Proofs.Synchronisation

/-!
# Starting over on what is left

A consumer without a snapshot that is set back applies the log again, from its first change, to the
documents that are still there. Updates and deletions search the collections for their target and
may come upon leftovers. If they find what they find on an empty space, the log leads to the same
documents; where a leftover comes first, the documents may differ for good.
-/

namespace ContentSpaces

namespace Catalog

variable {space : Space} {clean clean' left left' : Catalog} {change : Change}
  {changes : List Change} {effect effect' : Cycle.Effect} {effects effects' : List Cycle.Effect}

def found? (cat : Catalog) (change : Change) : Option Subject :=
  match change.kind with
  | .create => none
  | .update => cat.target? change.resource
  | .delete => (cat.locate? change.resource).map fun kind => ⟨kind, change.resource⟩

def after (space : Space) (cat : Catalog) (change : Change) : Catalog :=
  (cat.apply space change).elim cat Prod.snd

theorem after_eq (h : clean.apply space change = some (effect, clean')) :
    clean.after space change = clean' := by
  rw [after, h]
  rfl

/-- Going through changes, the second catalog finds whatever the first one finds. -/
def SameFinds (space : Space) : Catalog → Catalog → List Change → Prop
  | _, _, [] => True
  | clean, left, change :: changes =>
    (clean.found? change = none ∨ left.found? change = clean.found? change) ∧
      SameFinds space (clean.after space change) (left.after space change) changes

instance decidableSameFinds (space : Space) : (clean left : Catalog) → (changes : List Change) →
    Decidable (SameFinds space clean left changes)
  | _, _, [] => isTrue trivial
  | clean, left, change :: changes =>
    have := decidableSameFinds space (clean.after space change) (left.after space change) changes
    inferInstanceAs (Decidable (_ ∧ _))

/-- The second catalog has the documents of the first and may have more. -/
def Within (clean left : Catalog) : Prop :=
  ∀ s document, clean.get? s = some document → left.get? s = some document

/-- Two catalogs have changed alike, or only the second has lost what the first did not have. -/
inductive Alike (clean left : Catalog) : Catalog → Catalog → Prop
  | kept : Alike clean left clean left
  | inserted (s : Subject) (document : Json) :
      Alike clean left (clean.insert s document) (left.insert s document)
  | erased (s : Subject) : Alike clean left (clean.erase s) (left.erase s)
  | cleared {s : Subject} (h : clean.get? s = none) : Alike clean left clean (left.erase s)

/-- Where two catalogs agree, they go on to agree. -/
theorem Alike.get?_eq (h : Alike clean left clean' left') {s : Subject}
    (hs : left.get? s = clean.get? s) : left'.get? s = clean'.get? s := by
  cases h with
  | kept => exact hs
  | inserted s' document => rw [Table.get?_insert, Table.get?_insert, hs]
  | erased s' => rw [Table.get?_erase, Table.get?_erase, hs]
  | cleared hnone =>
    rw [Table.get?_erase]
    split
    · rename_i heq
      rw [heq, hnone]
    · exact hs

theorem Alike.within (h : Alike clean left clean' left') (hwithin : clean.Within left) :
    clean'.Within left' := by
  intro s document hdocument
  by_cases hs : clean.get? s = none
  · cases h with
    | kept => cases hs.symm.trans hdocument
    | inserted s' document' =>
      rw [Table.get?_insert] at hdocument ⊢
      split at hdocument
      · rename_i heq
        rw [if_pos heq, hdocument]
      · cases hs.symm.trans hdocument
    | erased s' =>
      rw [Table.get?_erase, hs, ite_self] at hdocument
      cases hdocument
    | cleared _ => cases hs.symm.trans hdocument
  · obtain ⟨stored, hstored⟩ := Option.ne_none_iff_exists'.mp hs
    rw [h.get?_eq ((hwithin s stored hstored).trans hstored.symm), hdocument]

theorem get?_eq_none_of_locate? {id : String} (h : clean.locate? id = none) (kind : Kind) :
    clean.get? ⟨kind, id⟩ = none := by
  have hall := List.find?_eq_none.mp h kind kind.mem_all
  simpa [Table.contains] using hall

/-- A change that finds the same in both catalogs changes them alike. -/
theorem alike_of_apply (hwithin : clean.Within left)
    (hfound : clean.found? change = none ∨ left.found? change = clean.found? change)
    (hclean : clean.apply space change = some (effect, clean'))
    (hleft : left.apply space change = some (effect', left')) : Alike clean left clean' left' := by
  unfold apply at hclean hleft
  unfold found? at hfound
  cases hkind : change.kind with
  | create =>
    simp only [hkind] at hclean hleft
    obtain ⟨payload, hpayload, hclean⟩ := Option.bind_eq_some_iff.mp hclean
    simp only [hpayload, Option.bind_eq_bind, Option.bind_some] at hleft
    cases hknown : payload.kind? with
    | none =>
      rw [hknown] at hclean hleft
      cases hclean
      cases hleft
      exact .kept
    | some kind =>
      rw [hknown] at hclean hleft
      obtain ⟨document, hdocument, hclean⟩ := Option.bind_eq_some_iff.mp hclean
      simp only [hdocument, Option.bind_some] at hleft
      cases hclean
      cases hleft
      exact .inserted _ _
  | update =>
    simp only [hkind] at hclean hleft hfound
    obtain ⟨target, htarget, hclean⟩ := Option.bind_eq_some_iff.mp hclean
    obtain ⟨current, hcurrent, hclean⟩ := Option.bind_eq_some_iff.mp hclean
    obtain ⟨patched, hpatched, hclean⟩ := Option.bind_eq_some_iff.mp hclean
    obtain ⟨document, hdocument, hclean⟩ := Option.bind_eq_some_iff.mp hclean
    have hsame : left.target? change.resource = some target := by
      obtain hnone | heq := hfound
      · cases hnone.symm.trans htarget
      · exact heq.trans htarget
    simp only [hsame, hwithin target current hcurrent, hpatched, hdocument,
      Option.bind_eq_bind, Option.bind_some] at hleft
    cases hclean
    cases hleft
    exact .inserted _ _
  | delete =>
    simp only [hkind] at hclean hleft hfound
    cases hlocated : clean.locate? change.resource with
    | some kind =>
      have hsame : left.locate? change.resource = some kind := by
        rw [hlocated] at hfound
        obtain hnone | heq := hfound
        · cases hnone
        · obtain ⟨kind', hkind', heq⟩ := Option.map_eq_some_iff.mp heq
          cases heq
          exact hkind'
      rw [hlocated] at hclean
      rw [hsame] at hleft
      cases hclean
      cases hleft
      exact .erased _
    | none =>
      rw [hlocated] at hclean
      cases hclean
      cases hlocated' : left.locate? change.resource with
      | none =>
        rw [hlocated'] at hleft
        cases hleft
        exact .kept
      | some kind =>
        rw [hlocated'] at hleft
        cases hleft
        exact .cleared (get?_eq_none_of_locate? hlocated kind)

theorem applyAll_cons_eq_some_iff :
    clean.applyAll space (change :: changes) = some (effects, clean') ↔
      ∃ effect mid rest, clean.apply space change = some (effect, mid) ∧
        mid.applyAll space changes = some (rest, clean') ∧ effects = effect :: rest := by
  rw [applyAll]
  simp only [Option.bind_eq_bind, Option.bind_eq_some_iff, Prod.exists, Option.some.injEq,
    Prod.mk.injEq]
  constructor
  · rintro ⟨effect, mid, hfirst, rest, last, hrest, rfl, rfl⟩
    exact ⟨effect, mid, rest, hfirst, hrest, rfl⟩
  · rintro ⟨effect, mid, rest, hfirst, hrest, rfl⟩
    exact ⟨effect, mid, hfirst, rest, _, hrest, rfl, rfl⟩

/-- What changes keep that find the same in both catalogs: the first stays within the second, and
where the two agree, they agree afterwards. -/
theorem within_and_agree_of_applyAll (hwithin : clean.Within left)
    (hfinds : SameFinds space clean left changes)
    (hclean : clean.applyAll space changes = some (effects, clean'))
    (hleft : left.applyAll space changes = some (effects', left')) :
    clean'.Within left' ∧ ∀ s, left.get? s = clean.get? s → left'.get? s = clean'.get? s := by
  -- A change needs the first to be within the second, so that both patch the same document.
  induction changes generalizing clean left effects effects' with
  | nil =>
    cases hclean
    cases hleft
    exact ⟨hwithin, fun _ hs => hs⟩
  | cons change changes ih =>
    obtain ⟨effect, mid, rest, hfirst, hrest, -⟩ := applyAll_cons_eq_some_iff.mp hclean
    obtain ⟨effect', mid', rest', hfirst', hrest', -⟩ := applyAll_cons_eq_some_iff.mp hleft
    obtain ⟨hfound, hfinds⟩ := hfinds
    rw [after_eq hfirst, after_eq hfirst'] at hfinds
    have halike := alike_of_apply hwithin hfound hfirst hfirst'
    obtain ⟨hwithin', hagree⟩ := ih (halike.within hwithin) hfinds hrest hrest'
    exact ⟨hwithin', fun s hs => hagree s (halike.get?_eq hs)⟩

theorem applyAll_append_eq_some_iff {xs ys : List Change} :
    clean.applyAll space (xs ++ ys) = some (effects, clean') ↔
      ∃ first mid rest, clean.applyAll space xs = some (first, mid) ∧
        mid.applyAll space ys = some (rest, clean') ∧ effects = first ++ rest := by
  constructor
  · intro h
    induction xs generalizing clean effects with
    | nil => exact ⟨[], clean, effects, rfl, h, rfl⟩
    | cons x xs ih =>
      obtain ⟨effect, mid, rest, hx, hrest, rfl⟩ := applyAll_cons_eq_some_iff.mp h
      obtain ⟨first, mid', rest', hxs, hys, rfl⟩ := ih hrest
      exact ⟨effect :: first, mid', rest', applyAll_cons_eq_some_iff.mpr ⟨_, _, _, hx, hxs, rfl⟩,
        hys, rfl⟩
  · rintro ⟨first, mid, rest, hxs, hys, rfl⟩
    exact applyAll_append hxs hys

theorem SameFinds.of_append {xs ys : List Change} (h : SameFinds space clean left (xs ++ ys))
    (hclean : clean.applyAll space xs = some (effects, clean'))
    (hleft : left.applyAll space xs = some (effects', left')) :
    SameFinds space clean left xs ∧ SameFinds space clean' left' ys := by
  induction xs generalizing clean left effects effects' with
  | nil =>
    cases hclean
    cases hleft
    exact ⟨trivial, h⟩
  | cons x xs ih =>
    obtain ⟨effect, mid, rest, hx, hrest, -⟩ := applyAll_cons_eq_some_iff.mp hclean
    obtain ⟨effect', mid', rest', hx', hrest', -⟩ := applyAll_cons_eq_some_iff.mp hleft
    obtain ⟨hfound, h⟩ := h
    rw [after_eq hx, after_eq hx'] at h
    obtain ⟨hxs, hys⟩ := ih h hrest hrest'
    refine ⟨⟨hfound, ?_⟩, hys⟩
    rw [after_eq hx, after_eq hx']
    exact hxs

/-- Changes applied over what some of them have left lead where they lead on an empty space, if they
find the same. -/
theorem eq_of_applyAll_again {before after : List Change} {again : Catalog}
    {kept cleanly anew : List Cycle.Effect}
    (hbefore : Catalog.applyAll space .empty before = some (kept, left))
    (hclean : Catalog.applyAll space .empty (before ++ after) = some (cleanly, clean))
    (hagain : left.applyAll space (before ++ after) = some (anew, again))
    (hfinds : SameFinds space .empty left (before ++ after)) : again = clean := by
  obtain ⟨first, mid, rest, hfirst, hrest, -⟩ := applyAll_append_eq_some_iff.mp hclean
  obtain ⟨first', mid', rest', hfirst', hrest', -⟩ := applyAll_append_eq_some_iff.mp hagain
  obtain ⟨-, rfl⟩ := Prod.mk.inj (Option.some.inj (hfirst.symm.trans hbefore))
  obtain ⟨hfinds₁, hfinds₂⟩ := hfinds.of_append hfirst hfirst'
  have hempty : Within .empty mid := fun _ _ h => nomatch h
  obtain ⟨hwithin, hagree₁⟩ := within_and_agree_of_applyAll hempty hfinds₁ hfirst hfirst'
  obtain ⟨-, hagree₂⟩ := within_and_agree_of_applyAll hwithin hfinds₂ hrest hrest'
  apply Table.ext_get?
  intro s
  apply hagree₂
  -- What was left over has come back by now; where nothing was, the two have agreed throughout.
  cases hs : mid.get? s with
  | none => rw [hagree₁ s hs, hs]
  | some document => exact hwithin s document hs

end Catalog

namespace Sync

open Replica

variable {cfg : Config} {remote : Remote} {consumer : RemoteConsumer} {log : List Change}
  {k n upper : Nat} {m m' : Replica}

/-- The phases of a call that bring the space up to an offset. -/
def advance (cfg : Config) (remote : Remote) (consumer : RemoteConsumer) (upper : Nat) :
    ReplicaM Advance := do
  let cursor ← onCursors (CursorStore.getOrFresh cfg.owner)
  let started ← start cfg remote consumer cursor.localOffset
  follow cfg remote upper started

/-- The documents of the space are as they were, and the cursor stands at the start. -/
structure SetBack (cfg : Config) (m m' : Replica) : Prop where
  filed : m'.store.content.Filed
  catalog : m'.store.content.catalog cfg.space = m.store.content.catalog cfg.space
  cursor : m'.cursors.AtStart cfg.owner

theorem localOffset_current_of_atStart {s : CursorStore} {owner : Consumer} (h : s.AtStart owner) :
    (s.current owner).localOffset = 0 := by
  unfold CursorStore.current
  cases hcursor : s.cursors.get? owner with
  | none => rfl
  | some cursor => exact h cursor hcursor

theorem ensures_advance {w : World} : Ensures (·.world = w) (advance cfg remote consumer upper)
    (fun a m => ∃ started mid, Started cfg remote consumer
      (w.cursors.current cfg.owner).localOffset w.read started mid ∧
        Followed cfg remote upper started mid a m.world) (fun _ _ => True) := by
  unfold advance
  refine ((ensures_onCursors (CursorStore.ensures_getOrFresh cfg.owner w.cursors)).mono_error
    fun _ _ _ => trivial).bind fun cursor => .of_exists fun s => .of_and fun hs => ?_
  obtain ⟨rfl, rfl⟩ := hs
  refine ((ensures_start _).mono_error fun _ _ _ => trivial).bind fun started =>
    ensures_of_world fun mid hstarted => ?_
  exact (ensures_follow upper started).mono (fun _ h => h)
    (fun _ _ h => ⟨started, mid, hstarted, h⟩) fun _ _ _ => trivial

theorem filed_of_advance (hfiled : m.store.content.Filed) {a : Advance}
    (h : advance cfg remote consumer upper m = .ok a m') : m'.store.content.Filed := by
  obtain ⟨started, mid, hstarted, hfollowed⟩ := ensures_advance.of_ok rfl h
  exact Content.Edits.filed (hstarted.edits.trans hfollowed.edits) hfiled

/-- A call that ends has brought the space up to what the remote announces before it settles; the
documents of a space that is not a user's are those that this has led to. -/
theorem advance_of_synchronize (hfiled : m.store.content.Filed) {outcome : Outcome}
    (h : synchronize cfg remote m = .ok outcome m') :
    ∃ consumer mid, remote.consumer = .ok consumer ∧
      advance cfg remote consumer consumer.lastOffset
        { m with requests := m.requests ++ [.consumer] } = .ok outcome.advance mid ∧
      (cfg.space ∉ Space.ofUsers →
        m'.store.content.catalog cfg.space = mid.store.content.catalog cfg.space) := by
  unfold synchronize at h
  obtain ⟨cursor, read, hread, h⟩ := bind_eq_ok_iff.mp h
  obtain ⟨answer, asking, hasked, h⟩ := bind_eq_ok_iff.mp h
  obtain ⟨consumer, answered, hconsumer, h⟩ := bind_eq_ok_iff.mp h
  obtain ⟨started, mid, hstarted, h⟩ := bind_eq_ok_iff.mp h
  obtain ⟨a, mid', hfollowed, h⟩ := bind_eq_ok_iff.mp h
  obtain ⟨aftermath, settled, hsettled, h⟩ := bind_eq_ok_iff.mp h
  obtain ⟨_, recorded, hrecorded, h⟩ := bind_eq_ok_iff.mp h
  cases h
  cases hasked
  obtain ⟨hanswer, rfl⟩ : remote.consumer = .ok consumer ∧
      answered = { read with requests := read.requests ++ [.consumer] } := by
    cases hanswer : remote.consumer with
    | error e =>
      rw [hanswer] at hconsumer
      cases hconsumer
    | ok consumer' =>
      rw [hanswer] at hconsumer
      cases hconsumer
      exact ⟨rfl, rfl⟩
  have hadvance : advance cfg remote consumer consumer.lastOffset
      { m with requests := m.requests ++ [.consumer] } = .ok a mid' := by
    refine bind_eq_ok_iff.mpr ⟨cursor, _, ?_, bind_eq_ok_iff.mpr ⟨started, mid, hstarted,
      hfollowed⟩⟩
    unfold onCursors at hread ⊢
    split at hread
    · rename_i hcursor
      cases hread
      rw [hcursor]
    · cases hread
  refine ⟨consumer, mid', hanswer, hadvance, fun hspace => ?_⟩
  have hstore : m'.store = settled.store := by
    unfold onCursors at hrecorded
    split at hrecorded <;> cases hrecorded
    rfl
  have hfiled' : mid'.store.content.Filed := filed_of_advance (m := { m with
    requests := m.requests ++ [.consumer] }) hfiled hadvance
  have haftercare := (ensures_settle a hfiled').of_ok rfl hsettled
  rw [hstore]
  exact Content.Upkeeps.catalog_eq haftercare.upkeeps hfiled' hspace

/-- Without a snapshot a consumer at the start applies the log from its first change on. -/
theorem applyAll_of_advance (hlog : (log.map Change.offset).Nodup)
    (hremote : Cycle.Supplies remote log) (hlink : consumer.snapshotLink? = none)
    (hfiled : m.store.content.Filed) (hcursor : m.cursors.AtStart cfg.owner) {a : Advance}
    (h : advance cfg remote consumer upper m = .ok a m') :
    ∃ effects, (m.store.content.catalog cfg.space).applyAll cfg.space
      (Cycle.inOrder (Feed.Log.range log 0 upper)) =
        some (effects, m'.store.content.catalog cfg.space) := by
  obtain ⟨started, mid, hstarted, hfollowed⟩ := ensures_advance.of_ok rfl h
  cases hstarted with
  | loaded _ hurl _ _ => cases hlink.symm.trans hurl
  | resumed _ =>
    have hzero : (m.world.cursors.current cfg.owner).localOffset = 0 :=
      localOffset_current_of_atStart hcursor
    rw [hzero] at hfollowed
    generalize hended : m'.world = w' at hfollowed
    have hcontent : m'.store.content = w'.content := congrArg World.content hended
    rw [hcontent]
    cases hfollowed with
    | current hreached =>
      have hnone : Feed.Log.range log 0 upper = [] := by
        refine List.filter_eq_nil_iff.mpr fun c _ => ?_
        simp only [Bool.and_eq_true, decide_eq_true_eq] at hreached ⊢
        omega
      rw [hnone, Cycle.inOrder, List.mergeSort_nil]
      exact ⟨[], rfl⟩
    | @updated changes _ _ _ hchanges hcommitted =>
      obtain ⟨effects, happlied, -⟩ := hcommitted.applied
      obtain ⟨served, hserved, hperm⟩ := hremote 0 upper
      rw [hserved] at hchanges
      cases hchanges
      refine ⟨effects, ?_⟩
      rw [← Cycle.inOrder_of_perm_range hlog hperm]
      exact happlied.catalog hfiled

/-- A consumer without a snapshot that is set back and applies the log again comes to the documents
of a clean application, if what updates and deletions find there they find over the leftovers. -/
theorem advance_again (hlog : (log.map Change.offset).Nodup)
    (hremote : Cycle.Supplies remote log) (hlink : consumer.snapshotLink? = none) (hk : k ≤ n)
    {m₀ m₁ m₂ m₃ clean : Replica} {a a₁ a₃ : Advance} (hfiled : m₀.store.content.Filed)
    (hempty : m₀.store.content.catalog cfg.space = .empty) (hcursor : m₀.cursors.AtStart cfg.owner)
    (hclean : advance cfg remote consumer n m₀ = .ok a clean)
    (hfirst : advance cfg remote consumer k m₀ = .ok a₁ m₁) (hback : SetBack cfg m₁ m₂)
    (hagain : advance cfg remote consumer n m₂ = .ok a₃ m₃)
    (hfinds : Catalog.SameFinds cfg.space .empty (m₁.store.content.catalog cfg.space)
      (Cycle.inOrder (Feed.Log.range log 0 n))) :
    m₃.store.content.catalog cfg.space = clean.store.content.catalog cfg.space := by
  obtain ⟨cleanly, hcleanly⟩ := applyAll_of_advance hlog hremote hlink hfiled hcursor hclean
  obtain ⟨kept, hkept⟩ := applyAll_of_advance hlog hremote hlink hfiled hcursor hfirst
  obtain ⟨anew, hanew⟩ := applyAll_of_advance hlog hremote hlink hback.filed hback.cursor hagain
  rw [hempty] at hcleanly hkept
  rw [hback.catalog] at hanew
  rw [Cycle.inOrder_range_append hlog (Nat.zero_le k) hk] at hcleanly hanew hfinds
  exact Catalog.eq_of_applyAll_again hkept hcleanly hanew hfinds

section Answered

structure Ready (cfg : Config) (m : Replica) : Prop where
  store : m.store.Up
  cursors : m.cursors.Up
  owned : m.cursors.Owned cfg.owner
  phase : m.engine.phase.canStart = true

def asked (m : Replica) : Replica :=
  { m with cursors := { m.cursors with calls := m.cursors.calls + 1 } }

theorem getOrFresh_of_up {s : CursorStore} (hs : s.Up) (owner : Consumer) :
    CursorStore.getOrFresh owner s = .ok (s.current owner) { s with calls := s.calls + 1 } := by
  have h := CursorStore.ensures_getOrFresh owner s
  cases hr : CursorStore.getOrFresh owner s with
  | ok cursor s' =>
    obtain ⟨rfl, rfl⟩ := h.of_ok rfl hr
    rfl
  | error e s' => exact absurd (h.of_error rfl hr) hs.not_refused

/-- Without a snapshot the phases come down to one cycle. -/
theorem advance_eq_update (hm : Ready cfg m) (hlink : consumer.snapshotLink? = none)
    (hbelow : (m.cursors.current cfg.owner).localOffset < upper) :
    advance cfg remote consumer upper m =
      match Cycle.update cfg remote (m.cursors.current cfg.owner).localOffset upper (asked m) with
      | .ok report m' => .ok ⟨report.committed, report.registrations, none, some report⟩ m'
      | .error e m' => .error e m' := by
  have hread : onCursors (CursorStore.getOrFresh cfg.owner) m =
      .ok (m.cursors.current cfg.owner) (asked m) := by
    rw [onCursors, getOrFresh_of_up hm.cursors]
    rfl
  have hstart (offset : Nat) : start cfg remote consumer offset =
      pure ⟨offset, [], none, none⟩ := by
    unfold start
    rw [hlink, ite_self]
  unfold advance
  simp only [bind, EStateM.bind, hread, hstart, pure, EStateM.pure, follow, hbelow, if_true]
  cases Cycle.update cfg remote (m.cursors.current cfg.owner).localOffset upper (asked m) <;> rfl

def contentCourse (space : Space) (log : List Change) (lower upper : Nat) (c : Content) :
    Cycle.Course Content :=
  Cycle.batchCourse space false (Feed.Log.range log lower upper) c

/-- A consumer at the start applies what the log has up to an offset, if it can be applied. -/
theorem advance_of_none (hm : Ready cfg m) (hlink : consumer.snapshotLink? = none)
    (hremote : Cycle.Supplies remote log) (hlog : (log.map Change.offset).Nodup)
    (hcursor : m.cursors.AtStart cfg.owner) (hupper : 0 < upper)
    (hnone : (contentCourse cfg.space log 0 upper m.store.content).failure = none) :
    ∃ a m', advance cfg remote consumer upper m = .ok a m' ∧ Ready cfg m' ∧
      m'.store.content = (contentCourse cfg.space log 0 upper m.store.content).state ∧
      (m'.cursors.current cfg.owner).localOffset =
        Cycle.lastOffset 0 (Feed.Log.range log 0 upper) := by
  have hzero := localOffset_current_of_atStart hcursor
  have hupdate : Cycle.update cfg remote 0 upper (asked m) = _ :=
    Cycle.update_of_supplies hremote hlog hm.phase hm.cursors
  obtain ⟨s, hs, hcontent, hcourse⟩ := Cycle.storeCourse_of_up cfg.space false
    (Cycle.inOrder (Feed.Log.range log 0 upper)) hm.store
  have hrun : Cycle.rangeCourse cfg.space log 0 upper (asked m).store =
      (contentCourse cfg.space log 0 upper m.store.content).withState s := hcourse
  have hthrough := (Cycle.Course.failure_withState _ s).trans hnone
  rw [hrun, Cycle.Course.ending_of_none hthrough] at hupdate
  rw [advance_eq_update hm hlink (hzero ▸ hupper), hzero, hupdate]
  have howner : ({ m.cursors.current cfg.owner with
      localOffset := Cycle.lastOffset 0 (Feed.Log.range log 0 upper) } : Cursor).owner =
      cfg.owner := hm.owned.owner_current
  refine ⟨_, _, rfl, ⟨hs, hm.cursors, ?_, rfl⟩, hcontent, ?_⟩
  · exact CursorStore.owned_of_put rfl howner
  · exact congrArg Cursor.localOffset (CursorStore.current_of_put rfl howner)

/-- A cycle that is cancelled keeps the content and resets the cursor. -/
theorem advance_of_cancelled (hm : Ready cfg m) (hlink : consumer.snapshotLink? = none)
    (hbelow : (m.cursors.current cfg.owner).localOffset < upper) {change : Change}
    {changes : List Change}
    (hbatch : remote.changes (m.cursors.current cfg.owner).localOffset upper =
      ⟨.ok (change :: changes), true⟩)
    (horderly : Cycle.Orderly (m.cursors.current cfg.owner).localOffset upper
      (change :: changes)) :
    ∃ m', advance cfg remote consumer upper m = .error .cancelled m' ∧ Ready cfg m' ∧
      m'.store.content = m.store.content ∧ m'.cursors.AtStart cfg.owner := by
  have hupdate : Cycle.update cfg remote _ upper (asked m) = _ :=
    Cycle.update_of_orderly cfg hm.phase hm.cursors hbatch horderly
  have hnonempty : Cycle.inOrder (change :: changes) ≠ [] := by
    intro hnil
    have hperm := Cycle.perm_inOrder (change :: changes)
    rw [hnil] at hperm
    cases List.nil_perm.mp hperm
  obtain ⟨first, rest, hfirst⟩ := List.exists_cons_of_ne_nil hnonempty
  have hrun : Cycle.storeCourse cfg.space true (Cycle.inOrder (change :: changes))
      (asked m).store = ⟨[], m.store, some .cancelled⟩ := by
    rw [hfirst]
    rfl
  rw [hrun, Cycle.Course.ending_of_some rfl] at hupdate
  rw [advance_eq_update hm hlink hbelow, hupdate]
  have hcursors : (asked m).cursors.Up := hm.cursors
  have hput : ((asked m).cursors.afterReset cfg.owner).cursors =
      (asked m).cursors.cursors.put (.fresh cfg.owner.context cfg.owner.name) :=
    hcursors.cursors_afterReset
  refine ⟨_, rfl, ⟨hm.store, hm.cursors, ?_, rfl⟩, rfl, ?_⟩
  · exact CursorStore.owned_of_put hput rfl
  · exact CursorStore.afterReset_atStart (hm.cursors _ _)

end Answered

section Trial

def reusing : List Change :=
  [.creation 1 .rule (Cycle.namedDocument "a"), .deletion 2 "a",
    .creation 3 .decoder (Cycle.namedDocument "a"), .creation 4 .rule (Cycle.namedDocument "b")]

def cancelling (log : List Change) : Remote :=
  { Cycle.supplying log with changes := fun lower upper =>
      ⟨.ok (Feed.Log.range log lower upper), true⟩ }

def unlinked : RemoteConsumer := ⟨"consumer", "context", 4, none, 0⟩

theorem snapshotLink?_unlinked : unlinked.snapshotLink? = none := rfl

theorem supplies_supplying (log : List Change) : Cycle.Supplies (Cycle.supplying log) log :=
  fun _ _ => ⟨_, rfl, .refl _⟩

theorem inOrder_reusing (lower upper : Nat) : Cycle.inOrder (Feed.Log.range reusing lower upper) =
    Feed.Log.range reusing lower upper := by
  have hascending : reusing.Pairwise fun a b => decide (a.offset ≤ b.offset) = true := by decide
  exact List.mergeSort_of_pairwise (hascending.sublist List.filter_sublist)

theorem contentCourse_reusing (upper : Nat) (c : Content) :
    contentCourse .standard reusing 0 upper c =
      Cycle.course (Content.apply .standard) false (Feed.Log.range reusing 0 upper) c := by
  rw [contentCourse, Cycle.batchCourse, inOrder_reusing]

theorem ready_fresh : Ready trialConfig (.of .empty .empty) :=
  ⟨fun _ _ => rfl, fun _ _ => rfl, fun _ h => (nomatch h), rfl⟩

theorem atStart_fresh : (Replica.of .empty .empty).cursors.AtStart trialConfig.owner :=
  fun _ h => (nomatch h)

/-- A consumer follows the log up to an offset and is set back by a cancelled cycle. -/
theorem set_back_at {k : Nat} (hk : 0 < k) (hbelow : k < 4) :
    ∃ a m₁ m₂,
      advance trialConfig (Cycle.supplying reusing) unlinked k (.of .empty .empty) = .ok a m₁ ∧
      advance trialConfig (cancelling reusing) unlinked 4 m₁ = .error .cancelled m₂ ∧
      Ready trialConfig m₂ ∧ SetBack trialConfig m₁ m₂ ∧
      m₁.store.content = (contentCourse .standard reusing 0 k .empty).state ∧
      m₂.store.content = m₁.store.content := by
  have hlog : (reusing.map Change.offset).Nodup := by decide
  have hcases : k = 1 ∨ k = 2 ∨ k = 3 := by omega
  have hnone : (contentCourse .standard reusing 0 k .empty).failure = none := by
    rw [contentCourse_reusing]
    obtain rfl | rfl | rfl := hcases <;> decide +kernel
  obtain ⟨a, m₁, hfirst, hready, hcontent, hoffset⟩ := advance_of_none ready_fresh
    snapshotLink?_unlinked (supplies_supplying reusing) hlog atStart_fresh hk hnone
  have hlast : Cycle.lastOffset 0 (Feed.Log.range reusing 0 k) = k := by
    rw [Cycle.lastOffset, inOrder_reusing]
    obtain rfl | rfl | rfl := hcases <;> rfl
  rw [hlast] at hoffset
  obtain ⟨change, changes, hrest⟩ : ∃ change changes,
      Feed.Log.range reusing k 4 = change :: changes := by
    obtain rfl | rfl | rfl := hcases <;> exact ⟨_, _, rfl⟩
  have hbatch : (cancelling reusing).changes (m₁.cursors.current trialConfig.owner).localOffset 4 =
      ⟨.ok (change :: changes), true⟩ := by
    rw [hoffset, ← hrest]
    rfl
  have horderly : Cycle.Orderly (m₁.cursors.current trialConfig.owner).localOffset 4
      (change :: changes) := by
    rw [hoffset, ← hrest]
    exact Cycle.orderly_range hlog
  obtain ⟨m₂, hcancelled, hready', hkept, hstart⟩ := advance_of_cancelled hready
    snapshotLink?_unlinked (hoffset ▸ hbelow) hbatch horderly
  refine ⟨a, m₁, m₂, hfirst, hcancelled, hready', ⟨?_, ?_, hstart⟩, hcontent, hkept⟩
  · rw [hkept]
    exact filed_of_advance .empty hfirst
  · rw [hkept]

theorem advance_four {m : Replica} (hm : Ready trialConfig m)
    (hcursor : m.cursors.AtStart trialConfig.owner)
    (hnone : (contentCourse .standard reusing 0 4 m.store.content).failure = none) :
    ∃ a m', advance trialConfig (Cycle.supplying reusing) unlinked 4 m = .ok a m' ∧
      m'.store.content = (contentCourse .standard reusing 0 4 m.store.content).state := by
  obtain ⟨a, m', h, -, hcontent, -⟩ := advance_of_none hm
    snapshotLink?_unlinked (supplies_supplying reusing) (by decide) hcursor (by decide) hnone
  exact ⟨a, m', h, hcontent⟩

/-- Set back after the decoder has been created, the consumer creates the rule anew, and the
deletion comes upon the decoder first: the rule stays. -/
theorem reusing_diverges : (reusing.map Change.offset).Nodup ∧
    Cycle.Supplies (Cycle.supplying reusing) reusing ∧ unlinked.snapshotLink? = none ∧
    ∃ a clean a₁ m₁ m₂ a₃ m₃,
      advance trialConfig (Cycle.supplying reusing) unlinked 4 (.of .empty .empty) =
        .ok a clean ∧
      advance trialConfig (Cycle.supplying reusing) unlinked 3 (.of .empty .empty) =
        .ok a₁ m₁ ∧
      advance trialConfig (cancelling reusing) unlinked 4 m₁ = .error .cancelled m₂ ∧
      SetBack trialConfig m₁ m₂ ∧
      advance trialConfig (Cycle.supplying reusing) unlinked 4 m₂ = .ok a₃ m₃ ∧
      m₃.store.content.catalog .standard ≠ clean.store.content.catalog .standard := by
  obtain ⟨a, clean, hclean, hcontent⟩ := advance_four ready_fresh atStart_fresh (by
    rw [contentCourse_reusing]
    decide +kernel)
  obtain ⟨a₁, m₁, m₂, hfirst, hcancelled, hready, hback, hleft, hkept⟩ :=
    set_back_at (k := 3) (by decide) (by decide)
  rw [hleft, contentCourse_reusing] at hkept
  obtain ⟨a₃, m₃, hagain, hcontent'⟩ := advance_four hready hback.cursor (by
    rw [hkept, contentCourse_reusing]
    decide +kernel)
  rw [hkept, contentCourse_reusing] at hcontent'
  rw [contentCourse_reusing] at hcontent
  refine ⟨by decide, supplies_supplying reusing, snapshotLink?_unlinked, a, clean, a₁, m₁, m₂, a₃,
    m₃, hclean, hfirst, hcancelled, hback, hagain, ?_⟩
  intro heq
  have hrule : ∀ c : Content, ((c.catalog .standard).get? ⟨.rule, "a"⟩).isSome =
      (c.get? ⟨.rule, .standard, "a"⟩).isSome := by
    intro c
    rw [Content.get?_catalog, Option.isSome_map]
  have hsome : (m₃.store.content.get? ⟨.rule, .standard, "a"⟩).isSome = true := by
    rw [hcontent']
    decide +kernel
  have hnone : (clean.store.content.get? ⟨.rule, .standard, "a"⟩).isSome = false := by
    rw [hcontent]
    decide +kernel
  rw [← hrule, heq, hrule, hnone] at hsome
  cases hsome

/-- Set back before the decoder has been created, the consumer finds the rule as before. -/
theorem reusing_converges : ∃ a clean a₁ m₁ m₂ a₃ m₃,
    advance trialConfig (Cycle.supplying reusing) unlinked 4 (.of .empty .empty) = .ok a clean ∧
    advance trialConfig (Cycle.supplying reusing) unlinked 1 (.of .empty .empty) = .ok a₁ m₁ ∧
    advance trialConfig (cancelling reusing) unlinked 4 m₁ = .error .cancelled m₂ ∧
    advance trialConfig (Cycle.supplying reusing) unlinked 4 m₂ = .ok a₃ m₃ ∧
    m₃.store.content.catalog .standard = clean.store.content.catalog .standard := by
  obtain ⟨a, clean, hclean, -⟩ := advance_four ready_fresh atStart_fresh (by
    rw [contentCourse_reusing]
    decide +kernel)
  obtain ⟨a₁, m₁, m₂, hfirst, hcancelled, hready, hback, hleft, hkept⟩ :=
    set_back_at (k := 1) (by decide) (by decide)
  rw [contentCourse_reusing] at hleft
  obtain ⟨a₃, m₃, hagain, -⟩ := advance_four hready hback.cursor (by
    rw [hkept, hleft, contentCourse_reusing]
    decide +kernel)
  refine ⟨a, clean, a₁, m₁, m₂, a₃, m₃, hclean, hfirst, hcancelled, hagain, ?_⟩
  have hfinds : Catalog.SameFinds .standard .empty (m₁.store.content.catalog .standard)
      (Cycle.inOrder (Feed.Log.range reusing 0 4)) := by
    rw [hleft, inOrder_reusing]
    decide +kernel
  exact advance_again (by decide) (supplies_supplying reusing) snapshotLink?_unlinked (by decide)
    .empty rfl atStart_fresh hclean hfirst hback hagain hfinds

end Trial

end Sync

end ContentSpaces
