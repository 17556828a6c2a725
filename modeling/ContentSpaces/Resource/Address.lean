import ContentSpaces.Resource.Kind

/-!
# Addresses

A resource is filed under its kind, its space and its ID. Addresses are ordered by kind, then by
space, then by ID.
-/

namespace ContentSpaces

instance : Ord Kind := ⟨fun a b => compare a.index b.index⟩

instance : Ord Space := ⟨fun a b => compare a.index b.index⟩

structure Address where
  kind : Kind
  space : Space
  id : String
  deriving DecidableEq, Repr

namespace Address

instance : Ord Address :=
  ⟨fun a b => (compare a.kind b.kind).then ((compare a.space b.space).then (compare a.id b.id))⟩

end Address

instance : Std.TransOrd Kind :=
  inferInstanceAs (Std.TransCmp (compareOn Kind.index))

instance : Std.LawfulEqOrd Kind where
  eq_of_compare {a b} h := Kind.index_injective
    (Std.LawfulEqCmp.eq_of_compare (show compare a.index b.index = .eq from h))

instance : Std.TransOrd Space :=
  inferInstanceAs (Std.TransCmp (compareOn Space.index))

instance : Std.LawfulEqOrd Space where
  eq_of_compare {a b} h := Space.index_injective
    (Std.LawfulEqCmp.eq_of_compare (show compare a.index b.index = .eq from h))

instance : Std.TransOrd Address :=
  inferInstanceAs (Std.TransCmp (compareLex (compareOn Address.kind)
    (compareLex (compareOn Address.space) (compareOn Address.id))))

instance : Std.LawfulEqOrd Address where
  compare_self := Std.ReflCmp.compare_self
  eq_of_compare {a b} h := by
    obtain ⟨h1, h⟩ := Ordering.then_eq_eq.mp h
    obtain ⟨h2, h3⟩ := Ordering.then_eq_eq.mp h
    cases a
    cases b
    simp only at h1 h2 h3
    rw [Std.LawfulEqCmp.eq_of_compare h1, Std.LawfulEqCmp.eq_of_compare h2,
      Std.LawfulEqCmp.eq_of_compare h3]

end ContentSpaces
