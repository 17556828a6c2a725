import ContentSpaces.Proofs.Cycle.Outcome
import ContentSpaces.Proofs.Mirror

/-!
# The registrations of a cycle

The tasks of a committed cycle do to a registry what its changes have done to the space. A registry
that has been right before the cycle is right again once it has taken them in turn.
-/

namespace ContentSpaces

variable {registered : Registered} {space : Space} {c : Content}

/-- Holds the integrations and rules of the space, each with its document, and nothing else. -/
def Registered.Matches (registered : Registered) (space : Space) (c : Content) : Prop :=
  ∀ s document, registered.get? s = some document ↔
    (s.kind = .integration ∨ s.kind = .rule) ∧
      ∃ r, c.get? ⟨s.kind, space, s.id⟩ = some r ∧ r.document = document

theorem Kind.isRegistrable_iff (kind : Kind) :
    kind.isRegistrable ↔ kind = .integration ∨ kind = .rule := by
  cases kind <;> decide

theorem Registered.matches_iff :
    registered.Matches space c ↔ registered = (c.catalog space).registrable := by
  have hregistrable (s : Subject) (document : Json) :
      (c.catalog space).registrable.get? s = some document ↔
        (s.kind = .integration ∨ s.kind = .rule) ∧
          ∃ r, c.get? ⟨s.kind, space, s.id⟩ = some r ∧ r.document = document := by
    rw [Catalog.get?_registrable, Content.get?_catalog, Option.ite_none_right_eq_some,
      Kind.isRegistrable_iff, Option.map_eq_some_iff]
  constructor
  · intro h
    apply Table.ext_get?
    intro s
    apply Option.ext
    intro document
    rw [h s document, hregistrable]
  · rintro rfl
    exact hregistrable

namespace Cycle

variable {cfg : Config} {remote : Remote} {lower upper : Nat} {m m' : Replica} {report : Report}

/-- Every change does to the space what its task does to the registry, so a cycle that commits takes a
registry that matches the space to one that matches it again. -/
theorem matches_of_update (hfiled : m.store.content.Filed)
    (hbefore : registered.Matches cfg.space m.store.content)
    (h : update cfg remote lower upper m = .ok report m') :
    (registered.takeAll report.registrations).Matches cfg.space m'.store.content := by
  obtain ⟨changes, -, hcommitted⟩ := (ensures_update remote lower upper).of_ok rfl h
  obtain ⟨effects, happlied, -, htasks⟩ := hcommitted.applied
  have hregistrable := Catalog.registrable_applyAll (happlied.catalog hfiled)
  rw [Registered.matches_iff] at hbefore ⊢
  rw [hbefore, htasks]
  exact hregistrable.symm

section Trial

/-- A rule gets another ID, under which it is stored beside the old one. -/
def renamed : List Change := [.revision 1 "r" [.withValue .replace "/id" (.string "s")]]

theorem renamed_matches : ∃ report m',
    update (.new "context" "consumer" "") (offering renamed) 0 1
        (.of (Content.file .empty onlyRule) .empty) = .ok report m' ∧
      report.registrations.length = 1 ∧
      ((Catalog.registrable (Content.catalog (Content.file .empty onlyRule) .standard)).takeAll
        report.registrations).Matches .standard m'.store.content := by
  have hfiled : (Content.file .empty onlyRule).Filed := Content.Filed.empty.file onlyRule
  have hbefore : (Catalog.registrable (Content.catalog (Content.file .empty onlyRule)
      .standard)).Matches (Config.new "context" "consumer" "").space
        (Content.file .empty onlyRule) :=
    Registered.matches_iff.mpr rfl
  have hreturned : returned (fun report _ => report.registrations.length == 1)
      (update (.new "context" "consumer" "") (offering renamed) 0 1
        (.of (Content.file .empty onlyRule) .empty)) := by
    decide +kernel
  obtain ⟨report, m', h, hlength⟩ := eq_ok_of_returned hreturned
  exact ⟨report, m', h, beq_iff_eq.mp hlength, matches_of_update hfiled hbefore h⟩

end Trial

end Cycle

end ContentSpaces
