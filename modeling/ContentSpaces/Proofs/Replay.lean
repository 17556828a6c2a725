import ContentSpaces.Feed.Log
import ContentSpaces.Proofs.Cycle
import Mathlib.Data.List.Nodup

/-!
# Replaying a log

The offsets of a log differ, so the changes of a range have one order, in whatever order they were
served. What a cycle over a range does therefore continues the replay up to the start of the range.
-/

namespace ContentSpaces

namespace Cycle

open Replica

variable {space : Space} {w : World} {log xs ys : List Change}

theorem ensures_located_of_up {change : Change} {target? : Option Subject}
    (htarget : target? = ((w.content.catalog space).locate? change.resource).map fun kind =>
      ⟨kind, change.resource⟩) :
    Ensures (fun m => m.world = w ∧ m.store.Up)
      (onStore (Store.locate space change.resource) >>= fun found => match found with
        | some kind => pure (⟨kind, space, change.resource⟩ : Address)
        | none => throw (.protocol (.unknownTarget change.offset change.resource)))
      (fun _ m => m.world = w ∧ m.store.Up) (fun _ _ => target? = none) := by
  refine Ensures.bind (ensures_onStore_of_answers (Store.reads_locate space change.resource)
    (Store.answers_locate space change.resource)) fun found => .of_and fun hfound => ?_
  cases found with
  | none =>
    refine .throw fun _ _ => ?_
    rw [htarget, ← hfound]
    rfl
  | some kind => exact .pure fun _ h => h

theorem ensures_updateTarget_of_up (change : Change) (hfiled : w.content.Filed) :
    Ensures (fun m => m.world = w ∧ m.store.Up) (updateTarget space change)
      (fun _ m => m.world = w ∧ m.store.Up)
      (fun _ _ => (w.content.catalog space).target? change.resource = none) := by
  unfold updateTarget
  split
  · rename_i halias
    refine Ensures.bind (ensures_onStore_of_answers (Store.reads_policy? space)
      (Store.answers_policy? space)) fun policy => .of_and fun hpolicy => ?_
    cases policy with
    | some r => exact .pure fun _ h => h
    | none =>
      refine ensures_located_of_up ?_
      rw [Catalog.target?, if_pos halias, hfiled.policyId?_catalog, ← hpolicy]
      rfl
  · rename_i halias
    refine ensures_located_of_up ?_
    rw [Catalog.target?, if_neg halias]

theorem ensures_create_of_up {kind : Kind} {document : Json} (c : Content) :
    Ensures (fun s => s.content = c ∧ s.Up)
      (do
        let r ← ofExcept (Resource.ingest kind space document)
        Store.create r
        return .changed (Task.upsert? r) : StoreM Effect)
      (fun _ s => s.Up) (fun _ _ => Catalog.admit? document = none) := by
  refine Ensures.bind (.ofExcept (Q := fun _ s => s.Up) (fun _ _ _ h => h.2) fun e _ he _ => ?_)
    fun r => ?_
  · exact Catalog.admit?_eq_none_of_ingest he
  · exact Ensures.bind ((Store.Answers.call _ _).mono_error fun _ _ => False.elim)
      fun _ => .pure fun _ h => h

theorem ensures_revise_of_up {change : Change} (hkind : change.kind = .update)
    (hfiled : w.content.Filed) {target : Address} (htarget : Targets space change w.content target) :
    Ensures (fun m => m.world = w ∧ m.store.Up)
      (onStore (Store.update target change.operations)) (fun _ m => m.store.Up)
      (fun _ _ => (w.content.catalog space).apply space change = none) := by
  have hupdate := Store.ensures_update_of_up target change.operations w.content
  refine ensures_onStore_of_up (hupdate.mono_error fun _ _ h => ?_)
  exact Content.apply_catalog_eq_none hkind (htarget.2 hfiled) htarget.1 h

theorem answers_remove (space : Space) (resource : String) : Store.Answers
    (do
      match ← Store.locate space resource with
      | none => return .skipped
      | some kind =>
        let _ ← Store.delete ⟨kind, space, resource⟩
        return .changed (Task.delete? kind resource) : StoreM Effect) := by
  refine (Store.answers_locate space resource).bind fun found => ?_
  cases found with
  | none => exact .pure _
  | some kind => exact Store.Answers.bind (.call _ _) fun _ => .pure _

/-- On a store that answers, a change fails only if the catalog does not admit it. -/
theorem ensures_apply_of_up (change : Change) (hfiled : w.content.Filed) :
    Ensures (fun m => m.world = w ∧ m.store.Up) (apply space change) (fun _ m => m.store.Up)
      (fun _ _ => (w.content.catalog space).apply space change = none) := by
  unfold apply
  cases hkind : change.kind with
  | create =>
    simp only
    cases hpayload : change.payload with
    | none =>
      refine .throw fun _ _ => ?_
      simp [Catalog.apply, hkind, hpayload]
    | some payload =>
      simp only
      cases hknown : payload.kind? with
      | none => exact .pure fun _ h => h.2
      | some kind =>
        refine (ensures_onStore_of_up (ensures_create_of_up w.content)).mono_error fun _ _ h => ?_
        simp [Catalog.apply, hkind, hpayload, hknown, h]
  | update =>
    refine Ensures.bind (R := fun target m =>
      Targets space change w.content target ∧ m.world = w ∧ m.store.Up)
      (((ensures_updateTarget change).and (ensures_updateTarget_of_up change hfiled)).mono
        (fun _ h => ⟨h.1, h⟩) (fun _ _ h => ⟨h.1.1, h.2⟩) fun _ _ h => ?_)
      fun target => .of_and fun htarget => ?_
    · simp [Catalog.apply, hkind, h.2]
    · exact (ensures_revise_of_up hkind hfiled htarget).bind fun r => .pure fun _ h => h
  | delete =>
    have hremove := (answers_remove space change.resource).of_content w.content
    exact (ensures_onStore_of_up hremove).mono_error fun _ _ => False.elim

theorem ensures_applyAll_of_up (changes : List Change) (hfiled : w.content.Filed) :
    Ensures (fun m => m.world = w ∧ m.store.Up) (applyAll space false changes)
      (fun _ m => m.store.Up)
      (fun _ _ => (w.content.catalog space).applyAll space changes = none) := by
  induction changes generalizing w with
  | nil => exact .pure fun _ h => h.2
  | cons change changes ih =>
    unfold applyAll
    simp only [Bool.false_eq_true, if_false]
    refine Ensures.bind (R := fun effect m => ∃ c, Applied space w.content [change] [effect] c ∧
      m.world = { w with content := c } ∧ m.store.Up)
      (((ensures_apply change).and (ensures_apply_of_up change hfiled)).mono (fun _ h => ⟨h.1, h⟩)
        ?_ ?_) fun effect => .of_exists fun c => .of_and fun happlied => ?_
    · rintro effect m ⟨⟨c, happlied, h⟩, hup⟩
      exact ⟨c, happlied, h, hup⟩
    · rintro _ _ ⟨-, hnone⟩
      simp only [Catalog.applyAll, hnone, Option.bind_eq_bind, Option.bind_none]
    refine Ensures.bind (R := fun _ m => m.world =
      { w with content := c, progress := note effect w.progress } ∧ m.store.Up) (.modify ?_)
      fun _ => (ih (happlied.edits.filed hfiled)).mono_error ?_
    · rintro m ⟨h, hup⟩
      refine ⟨?_, hup⟩
      have hprogress : m.engine.progress = w.progress := congrArg World.progress h
      rw [← hprogress]
      exact congrArg (fun w => { w with progress := note effect m.engine.progress }) h
    · intro _ _ hnone
      have hone := happlied.catalog hfiled
      rw [Catalog.applyAll] at hone
      obtain ⟨⟨effect', cat⟩, hfirst, hcat⟩ := Option.bind_eq_some_iff.mp hone
      cases hcat
      simp only [Catalog.applyAll, hfirst, Option.bind_eq_bind, Option.bind_some]
      rw [hnone]
      rfl

def upTo (log : List Change) (offset : Nat) : List Change := log.filter fun c => c.offset ≤ offset

theorem pairwise_inOrder (xs : List Change) :
    (inOrder xs).Pairwise fun a b => a.offset ≤ b.offset := by
  have h : (inOrder xs).Pairwise fun a b => decide (a.offset ≤ b.offset) = true :=
    List.pairwise_mergeSort (by simp only [decide_eq_true_eq]; omega)
      (by simp only [Bool.or_eq_true, decide_eq_true_eq]; omega) xs
  exact h.imp of_decide_eq_true

theorem perm_inOrder (xs : List Change) : (inOrder xs).Perm xs := List.mergeSort_perm xs _

/-- A list in offset order is what sorting the same changes of a log gives. -/
theorem eq_inOrder_of_perm (hlog : (log.map Change.offset).Nodup) (hys : ∀ c ∈ ys, c ∈ log)
    (hordered : xs.Pairwise fun a b => a.offset ≤ b.offset) (h : xs.Perm ys) : xs = inOrder ys := by
  have hperm : xs.Perm (inOrder ys) := h.trans (perm_inOrder ys).symm
  refine hperm.eq_of_pairwise (fun a b ha hb hab hba => ?_) hordered (pairwise_inOrder ys)
  exact List.inj_on_of_nodup_map hlog (hys a (h.mem_iff.mp ha))
    (hys b ((perm_inOrder ys).mem_iff.mp hb)) (Nat.le_antisymm hab hba)

/-- The changes of a range have one order, in whatever order they have come in. -/
theorem inOrder_of_perm_range (hlog : (log.map Change.offset).Nodup) {lower upper : Nat}
    (h : xs.Perm (Feed.Log.range log lower upper)) :
    inOrder xs = inOrder (Feed.Log.range log lower upper) :=
  eq_inOrder_of_perm hlog (fun _ hc => List.mem_of_mem_filter hc) (pairwise_inOrder xs)
    ((perm_inOrder xs).trans h)

/-- The changes up to an offset come before the others. -/
theorem inOrder_split (hys : (ys.map Change.offset).Nodup) (offset : Nat) : inOrder ys =
    inOrder (ys.filter fun c => c.offset ≤ offset) ++
      inOrder (ys.filter fun c => !(c.offset ≤ offset)) := by
  refine (eq_inOrder_of_perm hys (fun _ hc => hc) ?_ ?_).symm
  · refine List.pairwise_append.mpr ⟨pairwise_inOrder _, pairwise_inOrder _, fun a ha b hb => ?_⟩
    have ha := (List.mem_filter.mp ((perm_inOrder _).mem_iff.mp ha)).2
    have hb := (List.mem_filter.mp ((perm_inOrder _).mem_iff.mp hb)).2
    simp only [decide_eq_true_eq, Bool.not_eq_true', decide_eq_false_iff_not] at ha hb
    omega
  · refine ((perm_inOrder _).append (perm_inOrder _)).trans ?_
    exact List.filter_append_perm (fun c => decide (c.offset ≤ offset)) ys

theorem inOrder_upTo (hlog : (log.map Change.offset).Nodup) {lower upper : Nat}
    (h : lower ≤ upper) : inOrder (upTo log upper) =
      inOrder (upTo log lower) ++ inOrder (Feed.Log.range log lower upper) := by
  have hdistinct : ((upTo log upper).map Change.offset).Nodup :=
    hlog.sublist (List.filter_sublist.map Change.offset)
  rw [inOrder_split hdistinct lower]
  unfold upTo Feed.Log.range
  rw [List.filter_filter, List.filter_filter]
  congr 2
  · refine List.filter_congr fun c _ => ?_
    rw [Bool.eq_iff_iff]
    simp only [decide_eq_true_eq, Bool.and_eq_true]
    omega
  · refine List.filter_congr fun c _ => ?_
    rw [Bool.eq_iff_iff]
    simp only [decide_eq_true_eq, Bool.and_eq_true, Bool.not_eq_true', decide_eq_false_iff_not]
    omega

def lastOffset (lower : Nat) (changes : List Change) : Nat :=
  ((inOrder changes).getLast?.map Change.offset).getD lower

theorem lastOffset_eq_or_mem (lower : Nat) (changes : List Change) :
    (changes = [] ∧ lastOffset lower changes = lower) ∨
      ∃ c ∈ changes, lastOffset lower changes = c.offset := by
  unfold lastOffset
  cases h : (inOrder changes).getLast? with
  | none =>
    have hnil := List.getLast?_eq_none_iff.mp h
    exact .inl ⟨List.Perm.eq_nil (hnil ▸ (perm_inOrder changes).symm), rfl⟩
  | some c => exact .inr ⟨c, (perm_inOrder changes).mem_iff.mp (List.mem_of_getLast? h), rfl⟩

theorem offset_le_lastOffset {changes : List Change} (lower : Nat) {c : Change}
    (hc : c ∈ changes) : c.offset ≤ lastOffset lower changes := by
  have hc := (perm_inOrder changes).mem_iff.mpr hc
  have hordered := pairwise_inOrder changes
  unfold lastOffset
  cases h : (inOrder changes).getLast? with
  | none =>
    rw [List.getLast?_eq_none_iff.mp h] at hc
    cases hc
  | some last =>
    obtain ⟨before, hbefore⟩ := List.getLast?_eq_some_iff.mp h
    rw [hbefore] at hc hordered
    show c.offset ≤ last.offset
    obtain hc | hc := List.mem_append.mp hc
    · exact (List.pairwise_append.mp hordered).2.2 c hc last List.mem_cons_self
    · exact Nat.le_of_eq (congrArg Change.offset (List.mem_singleton.mp hc))

/-- Up to the committed offset there are the changes that the cycle has applied, and no others. -/
theorem range_lastOffset {lower upper : Nat} {changes : List Change}
    (h : changes.Perm (Feed.Log.range log lower upper)) :
    Feed.Log.range log lower (lastOffset lower changes) = Feed.Log.range log lower upper := by
  have hmem (c : Change) : c ∈ changes ↔ c ∈ log ∧ lower < c.offset ∧ c.offset ≤ upper := by
    rw [h.mem_iff, Feed.Log.range, List.mem_filter, Bool.and_eq_true, decide_eq_true_eq,
      decide_eq_true_eq]
  refine List.filter_congr fun c hc => ?_
  rw [Bool.eq_iff_iff, Bool.and_eq_true, Bool.and_eq_true, decide_eq_true_eq, decide_eq_true_eq,
    decide_eq_true_eq]
  constructor
  · rintro ⟨hlower, hlast⟩
    obtain ⟨-, heq⟩ | ⟨last, hmemLast, heq⟩ := lastOffset_eq_or_mem lower changes
    · omega
    · rw [heq] at hlast
      exact ⟨hlower, Nat.le_trans hlast ((hmem last).mp hmemLast).2.2⟩
  · rintro ⟨hlower, hupper⟩
    exact ⟨hlower, offset_le_lastOffset lower ((hmem c).mpr ⟨hc, hlower, hupper⟩)⟩

theorem lower_le_lastOffset {lower upper : Nat} {changes : List Change}
    (h : changes.Perm (Feed.Log.range log lower upper)) : lower ≤ lastOffset lower changes := by
  obtain ⟨-, heq⟩ | ⟨last, hmem, heq⟩ := lastOffset_eq_or_mem lower changes
  · exact Nat.le_of_eq heq.symm
  · have hrange := (List.mem_filter.mp (h.mem_iff.mp hmem)).2
    rw [Bool.and_eq_true, decide_eq_true_eq] at hrange
    omega

/-- The catalog that a log leads to when all of its changes up to an offset are applied in order to
the empty one. -/
def replay? (space : Space) (log : List Change) (offset : Nat) : Option Catalog :=
  (Catalog.applyAll space .empty
    ((upTo log offset).mergeSort fun a b => a.offset ≤ b.offset)).map Prod.snd

/-- A cycle does the same to an empty store that answers. -/
theorem replay?_eq_applyAll (space : Space) (log : List Change) (offset : Nat) :
    replay? space log offset =
      match applyAll space false (inOrder (upTo log offset)) (.of .empty .empty) with
      | .ok _ m => some (m.store.content.catalog space)
      | .error _ _ => none := by
  have hfiled : Content.Filed .empty := .empty
  cases h : applyAll space false (inOrder (upTo log offset)) (.of .empty .empty) with
  | ok u m =>
    obtain ⟨c, effects, happlied, hworld⟩ := (ensures_applyAll false _).of_ok rfl h
    have hcontent : m.store.content = c := congrArg World.content hworld
    have happly : Catalog.applyAll space .empty (inOrder (upTo log offset)) =
        some (effects, c.catalog space) := happlied.catalog hfiled
    rw [inOrder] at happly
    rw [replay?, happly, ← hcontent]
    rfl
  | error e m =>
    have hnone : Catalog.applyAll space .empty (inOrder (upTo log offset)) = none :=
      (ensures_applyAll_of_up _ hfiled).of_error ⟨rfl, fun _ _ => rfl⟩ h
    rw [inOrder] at hnone
    rw [replay?, hnone]
    rfl

variable {changes : List Change} {cat cat' : Catalog} {effects : List Effect} {lower upper : Nat}

/-- Applying the changes of a range to a replay continues it up to the last of them. -/
theorem replay?_lastOffset (hlog : (log.map Change.offset).Nodup)
    (hchanges : changes.Perm (Feed.Log.range log lower upper))
    (hbefore : replay? space log lower = some cat)
    (happly : cat.applyAll space (inOrder changes) = some (effects, cat')) :
    replay? space log (lastOffset lower changes) = some cat' := by
  have hrange := inOrder_of_perm_range hlog hchanges
  unfold replay? at hbefore ⊢
  obtain ⟨⟨before, cat₀⟩, hreplayed, rfl⟩ := Option.map_eq_some_iff.mp hbefore
  have happended := Catalog.applyAll_append hreplayed happly
  rw [hrange, ← range_lastOffset hchanges] at happended
  rw [← inOrder, inOrder_upTo hlog (lower_le_lastOffset hchanges)]
  exact congrArg (Option.map Prod.snd) happended

end Cycle

end ContentSpaces
