import ContentSpaces.Proofs.Store

/-!
# Where an update writes

The document that a patch yields decides under which ID it is filed. An update therefore leaves alone
what it does not address exactly if the ID stays, or if the very same resource stands under the new
ID already.
-/

namespace ContentSpaces

namespace Store

variable {s s' : Store} {a : Address} {ops : List Patch.Operation} {r : Resource}

/-- An update that returns has filed the patched resource in the collection it was found in. -/
theorem written_of_update (hfiled : s.content.Filed) (h : update a ops s = .ok r s') :
    s'.content = s.content.file r ∧ r.address = ⟨a.kind, a.space, r.id⟩ ∧
      (s.content.get? a).isSome := by
  obtain ⟨⟨stored, hstored, hpatch⟩, hwritten⟩ := (ensures_update a ops s.content).of_ok rfl h
  refine ⟨hwritten, ?_, by rw [hstored]; rfl⟩
  rw [Resource.address_applyPatch hpatch, ← hfiled a stored hstored]
  rfl

/-- Apart from its own address an update changes nothing, in content or in number, exactly if the
patch keeps the ID or the resource it yields is already there. -/
theorem update_spares_iff (hfiled : s.content.Filed) (h : update a ops s = .ok r s') :
    (∀ b, b ≠ ⟨a.kind, a.space, r.id⟩ → s'.content.get? b = s.content.get? b) ∧
      (((∀ b, b ≠ a → s'.content.get? b = s.content.get? b) ∧
          s'.content.size = s.content.size) ↔
        r.id = a.id ∨ s.content.get? ⟨a.kind, a.space, r.id⟩ = some r) := by
  obtain ⟨hwritten, haddress, htarget⟩ := written_of_update hfiled h
  have hget (b : Address) : s'.content.get? b =
      if b = ⟨a.kind, a.space, r.id⟩ then some r else s.content.get? b := by
    rw [hwritten, Content.get?_file, haddress]
  have hsize : s'.content.size =
      if (s.content.get? ⟨a.kind, a.space, r.id⟩).isSome then s.content.size
      else s.content.size + 1 := by
    rw [hwritten, Content.file, Table.size_insert, haddress]
  refine ⟨fun b hb => by rw [hget, if_neg hb], ?_⟩
  constructor
  · rintro ⟨hframe, -⟩
    by_cases hid : r.id = a.id
    · exact .inl hid
    · right
      have hother : (⟨a.kind, a.space, r.id⟩ : Address) ≠ a := fun he => hid (congrArg Address.id he)
      rw [← hframe _ hother, hget, if_pos rfl]
  · rintro (hid | hsame)
    · have hown : (⟨a.kind, a.space, r.id⟩ : Address) = a := by rw [hid]
      rw [hown] at hget hsize
      exact ⟨fun b hb => by rw [hget, if_neg hb], by rw [hsize, if_pos htarget]⟩
    · refine ⟨fun b _ => ?_, by rw [hsize, hsame]; rfl⟩
      rw [hget]
      split
      · rename_i hb
        rw [hb, hsame]
      · rfl

section Trial

def levelled (id : String) (level : Nat) : Resource :=
  let document : Json := .object [("id", .string id), ("level", .ofNat level)]
  ⟨.rule, document, .draft, none, Digest.ofDocument document⟩

def twoRules : Store := .ofContent ((Content.file .empty (levelled "r1" 1)).file (levelled "r2" 2))

theorem filed_twoRules : twoRules.content.Filed := (Content.Filed.empty.file _).file _

/-- A patch of the level leaves the other rule alone. -/
theorem levelPatch_spares : ∃ r s',
    update ⟨.rule, .draft, "r1"⟩ [.withValue .replace "/level" (.ofNat 3)] twoRules = .ok r s' ∧
      (∀ b, b ≠ ⟨.rule, .draft, "r1"⟩ → s'.content.get? b = twoRules.content.get? b) ∧
      s'.content.size = 2 := by
  have hkept : returned (fun r _ => r.id == "r1")
      (update ⟨.rule, .draft, "r1"⟩ [.withValue .replace "/level" (.ofNat 3)] twoRules) = true := by
    decide +kernel
  obtain ⟨r, s', hrun, hid⟩ := eq_ok_of_returned hkept
  obtain ⟨-, hspares⟩ := update_spares_iff filed_twoRules hrun
  exact ⟨r, s', hrun, hspares.mpr (.inl (beq_iff_eq.mp hid))⟩

/-- A patch of the ID overwrites the rule that has it. -/
theorem idPatch_overwrites : twoRules.content.Filed ∧ ∃ r s',
    update ⟨.rule, .draft, "r1"⟩ [.withValue .replace "/id" (.string "r2")] twoRules = .ok r s' ∧
      s'.content.get? ⟨.rule, .draft, "r2"⟩ ≠ twoRules.content.get? ⟨.rule, .draft, "r2"⟩ := by
  have htexts : returned (fun _ s' => decide (
        (s'.content.get? ⟨.rule, .draft, "r2"⟩).map (fun r => r.document.compact) ≠
          (twoRules.content.get? ⟨.rule, .draft, "r2"⟩).map fun r => r.document.compact))
      (update ⟨.rule, .draft, "r1"⟩ [.withValue .replace "/id" (.string "r2")] twoRules) = true := by
    decide +kernel
  obtain ⟨r, s', hrun, hother⟩ := eq_ok_of_returned htexts
  refine ⟨filed_twoRules, r, s', hrun, fun hsame => ?_⟩
  exact of_decide_eq_true hother (congrArg (Option.map fun r => r.document.compact) hsame)

end Trial

end Store

end ContentSpaces
